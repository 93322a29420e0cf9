import Reckon.Proofs.Calculations
/-!
# How runs of the program end

A run writes one line, or says on the error output what is wrong, or a fault
escapes (`run_ends`).  The faults that escape are those of files that are not
the text they should be, of variables out of the range of doubles, and whatever
goes wrong in the reader of settings or in the log.

`check` stops where `eval` goes on to evaluate.  From there on nothing can fail
any more, so the two commands end alike (`check_alike_eval`).

How deep the calls of a program may go is no part of this: a limit of depth in
the settings that the machine cannot keep up with is not told apart here.
-/

namespace Reckon

namespace CommandLine

open Settings (Usable)

/-! ### Faults -/

/-- The faults of loading that are not reported: a directory in the place of
the file, any fault of the reader but its reports, and an integer with too many
digits to be shown. -/
inductive Unreported : Fault → Prop
  | directory (path : String) : Unreported (.directory path)
  | outside (f : OutsideFault) : Unreported (.outside f)
  | unwritable : Unreported (.settings .unwritable)

/-- What is among these faults is not reported. -/
theorem Unreported.not_reported {f : Fault} (h : Unreported f) : ¬ Reported f := by
  cases h <;> exact fun h => nomatch h

/-- A fault of settings is reported, unless it is that of a part that is
missing or that of an integer with too many digits. -/
theorem reported_settings {f : SettingsFault} (h : Settings.Present f) :
    Reported (.settings f) ∨ Unreported (.settings f) := by
  cases f with
  | missing key => exact absurd rfl (h key)
  | unwritable => exact .inr .unwritable
  | _ => exact .inl rfl

/-- The faults of reading a settings file. -/
theorem read_failsOnly (reader : Settings.Reader) (path : String) (entry : FileEntry) :
    FailsOnly (fun f => Reported f ∨ Unreported f) (Settings.read reader path entry) := by
  unfold Settings.read
  split
  · exact .inr (.directory path)
  · split
    · trivial
    · exact .inl rfl
    · exact .inr (.outside _)

/-- The faults of the settings that a datum gives. -/
theorem ofDatum_failsOnly (d : Datum) :
    FailsOnly (fun f => Reported f ∨ Unreported f) (Settings.ofDatum d) := by
  unfold Settings.ofDatum
  split
  · next e es =>
      have hpresent := Settings.validate_merge_failsOnly (e :: es)
      cases hvalid : Settings.validate (Datum.merge Settings.defaults (e :: es)) with
      | ok es' => trivial
      | error f =>
          rw [hvalid] at hpresent
          exact reported_settings hpresent
  · trivial

/-- The faults of loading settings. -/
theorem load_failsOnly (reader : Settings.Reader) (path : String) (entry : Option FileEntry) :
    FailsOnly (fun f => Reported f ∨ Unreported f) (Settings.load reader path entry) := by
  cases entry with
  | none => trivial
  | some entry => exact (read_failsOnly reader path entry).bind fun d _ => ofDatum_failsOnly d

/-- What is loaded at the start of a run. -/
abbrev loaded (reader : Settings.Reader) (files : FileTree) : Except Fault Entries :=
  Settings.load reader Settings.fileName (files.find? Settings.fileName)

/-! ### What can escape -/

/-- The desk that work leaves behind, also when it fails. -/
def deskBehind {α : Type} : EStateM.Result Fault Desk α → Desk
  | .ok _ d | .error _ d => d

/-- The desk on which the expression was read, or on which that failed. -/
def preparedDesk (es : Entries) (source : String) (assignments : List String)
    (sources : Sources) : Desk :=
  deskBehind (prepare es source assignments (Desk.fresh sources))

/-- If the expression is read, it is the desk behind that. -/
theorem preparedDesk_of_ok {es : Entries} {source : String} {assignments : List String}
    {sources : Sources} {tree : Expr} {d : Desk}
    (h : prepare es source assignments (Desk.fresh sources) = .ok tree d) :
    preparedDesk es source assignments sources = d := by
  rw [preparedDesk, h]
  rfl

/-- If that fails, it is the desk where it did. -/
theorem preparedDesk_of_error {es : Entries} {source : String} {assignments : List String}
    {sources : Sources} {f : Fault} {d : Desk}
    (h : prepare es source assignments (Desk.fresh sources) = .error f d) :
    preparedDesk es source assignments sources = d := by
  rw [preparedDesk, h]
  rfl

/-- The faults that escape from a run. -/
inductive Escapes (reader : Settings.Reader) (limit : LogLimit) (files : FileTree)
    (sources : Sources) : List String → Fault → Prop
  /-- The settings file is a directory, or its reader fails with anything but a
  report, or the settings hold an integer with too many digits to be shown. -/
  | settings {word operand : String} {assignments : List String} {command : Command} {f : Fault}
      (hcommand : Command.ofName? word = some command) (hload : loaded reader files = .error f)
      (hf : Unreported f) : Escapes reader limit files sources (word :: operand :: assignments) f
  /-- The file to run is a directory. -/
  | directory {word operand : String} {assignments : List String} {es : Entries}
      (hcommand : Command.ofName? word = some .run) (hload : loaded reader files = .ok es)
      (hfind : files.find? operand = some .directory) :
      Escapes reader limit files sources (word :: operand :: assignments) (.directory operand)
  /-- The bytes of the file to run are no text. -/
  | encoding {word operand : String} {assignments : List String} {es : Entries}
      {bytes : List UInt8} {e : Text.Utf8Error}
      (hcommand : Command.ofName? word = some .run) (hload : loaded reader files = .ok es)
      (hfind : files.find? operand = some (.file bytes)) (hdecode : Text.decode bytes = .error e) :
      Escapes reader limit files sources (word :: operand :: assignments) (.encoding e)
  /-- Something that was done up to the expression cannot be logged. -/
  | log {word operand source : String} {assignments : List String} {command : Command}
      {es : Entries} {f : OutsideFault}
      (hcommand : Command.ofName? word = some command) (hload : loaded reader files = .ok es)
      (hsource : expression? command operand files = .ok (some source))
      (hstop : stop? limit es (preparedDesk es source assignments sources) = some f) :
      Escapes reader limit files sources (word :: operand :: assignments) (.outside f)
  /-- A variable of the settings is out of the range of doubles. -/
  | outOfRange {word operand source : String} {assignments : List String} {command : Command}
      {es vars : Entries} {name : Scalar} {n : Number}
      (hcommand : Command.ofName? word = some command) (hload : loaded reader files = .ok es)
      (hsource : expression? command operand files = .ok (some source))
      (hvars : Settings.find? "variables" es = some (.mapping vars))
      (hmem : (name, .scalar (.number n)) ∈ vars) (hrange : n.toDouble? = none)
      (hstop : stop? limit es (preparedDesk es source assignments sources) = none) :
      Escapes reader limit files sources (word :: operand :: assignments) (.refusal .tooLarge)

/-- A text that begins with what is wrong. -/
def Complains (text : String) : Prop :=
  ∃ mark ∈ ["Error: ", "Usage: ", "Unknown command: "], mark.toList <+: text.toList

instance (text : String) : Decidable (Complains text) :=
  inferInstanceAs (Decidable (∃ mark ∈ _, _))

/-- How a run can end. -/
inductive Ends (reader : Settings.Reader) (limit : LogLimit) (files : FileTree)
    (sources : Sources) (arguments : List String) : Ending → Prop
  /-- With the line that the command has to say. -/
  | answered {word operand source line : String} {assignments : List String} {command : Command}
      {es : Entries} {tree : Expr} {d : Desk}
      (harguments : arguments = word :: operand :: assignments)
      (hcommand : Command.ofName? word = some command) (hload : loaded reader files = .ok es)
      (hsource : expression? command operand files = .ok (some source))
      (htree : prepare es source assignments (Desk.fresh sources) = .ok tree d)
      (hline : Says command es tree d.sources line) (hone : '\n' ∉ line.toList) :
      Ends reader limit files sources arguments (.exit 0 (line ++ "\n") (log es d))
  /-- With nothing but what is wrong with the arguments, the settings or the file. -/
  | refused {message : String} (h : Complains message) :
      Ends reader limit files sources arguments (.exit 1 "" message)
  /-- With nothing but what is wrong with the assignments or the expression,
  behind what was logged before. -/
  | failed {word operand source : String} {assignments : List String} {command : Command}
      {es : Entries} {f : Fault} {d : Desk}
      (harguments : arguments = word :: operand :: assignments)
      (hcommand : Command.ofName? word = some command) (hload : loaded reader files = .ok es)
      (hsource : expression? command operand files = .ok (some source))
      (hprepare : prepare es source assignments (Desk.fresh sources) = .error f d)
      (h : Complains (faultText f)) :
      Ends reader limit files sources arguments (.exit 1 "" (log es d ++ faultText f))
  /-- With a fault that escapes. -/
  | escaped {f : Fault} (h : Escapes reader limit files sources arguments f) :
      Ends reader limit files sources arguments (.escape f)

/-! ### The log -/

section Log

variable {limit : LogLimit} {settings : Entries} {d d' : Desk}

/-- What stops the log hangs on nothing but the journal. -/
theorem stop?_congr (h : d.journal = d'.journal) :
    stop? limit settings d = stop? limit settings d' := by
  simp only [stop?, h]

/-- The log hangs on nothing but the journal. -/
theorem log_congr (h : d.journal = d'.journal) : log settings d = log settings d' := by
  simp only [log, h]

/-- What cannot be logged ends the run. -/
theorem behindLog_of_stop {f : OutsideFault} (h : stop? limit settings d = some f)
    (ending : Ending) : behindLog limit settings d ending = .escape (.outside f) := by
  simp only [behindLog, h]

/-- Where all can be logged the ending is as it was. -/
theorem behindLog_of_none (h : stop? limit settings d = none) (ending : Ending) :
    behindLog limit settings d ending = ending := by
  simp only [behindLog, h]

/-- What is logged does not hang on what a command makes of the tree. -/
theorem journal_answer (command : Command) (settings : Entries) (expression : String)
    (assignments : List String) (sources : Sources) :
    (deskBehind (answer command settings expression assignments (Desk.fresh sources))).journal =
      (preparedDesk settings expression assignments sources).journal := by
  cases hprepare : prepare settings expression assignments (Desk.fresh sources) with
  | error f d =>
      have hanswer : answer command settings expression assignments (Desk.fresh sources) =
          .error f d := bind_eq_error.mpr (.inl hprepare)
      rw [hanswer, preparedDesk_of_error hprepare]
      rfl
  | ok tree d =>
      have hanswer : answer command settings expression assignments (Desk.fresh sources) =
          conclude command settings tree d := bind_of_ok hprepare _
      have hkept := conclude_keeps_journal command settings tree d.journal d rfl
      rw [hanswer, preparedDesk_of_ok hprepare]
      cases hconclude : conclude command settings tree d with
      | ok line d' =>
          rw [hconclude] at hkept
          exact hkept.1
      | error f d' =>
          rw [hconclude] at hkept
          exact hkept

end Log

/-! ### Cases of a run -/

/-- One line is its text and a line end. -/
theorem lines_singleton (line : String) : lines [line] = line ++ "\n" := by
  simp [lines, String.join]

/-- More may follow behind what is wrong. -/
theorem Complains.append {text : String} (h : Complains text) (rest : String) :
    Complains (text ++ rest) := by
  obtain ⟨mark, hmark, hbegins⟩ := h
  refine ⟨mark, hmark, ?_⟩
  rw [String.toList_append]
  exact hbegins.trans (List.prefix_append _ _)

/-- A line complains as its text does. -/
theorem Complains.line {text : String} (h : Complains text) : Complains (lines [text]) := by
  rw [lines_singleton]
  exact h.append _

/-- The line for a fault says that it is one. -/
theorem complains_faultText (f : Fault) : Complains (faultText f) := by
  have herror : Complains "Error: " := by decide
  exact (herror.append _).line

section Cases

variable {reader : Settings.Reader} {limit : LogLimit} {files : FileTree} {sources : Sources}
  {word operand : String} {assignments : List String} {command : Command} {es : Entries}
  {f : Fault}

/-- An unknown command is named. -/
theorem run_of_unknown (hcommand : Command.ofName? word = none) (rest : List String) :
    run reader limit (word :: rest) files sources = failure ["Unknown command: " ++ word] := by
  unfold run
  simp only [hcommand]

/-- A command without its operand is explained. -/
theorem run_of_incomplete (hcommand : Command.ofName? word = some command) :
    run reader limit [word] files sources =
      failure ["Usage: strmath " ++ command.name ++ " " ++ command.operand ++
        " [name=value ...]"] := by
  unfold run
  simp only [hcommand]

/-- A fault of the settings ends the run before anything is read. -/
theorem run_of_unloaded (hcommand : Command.ofName? word = some command)
    (hload : loaded reader files = .error f) :
    run reader limit (word :: operand :: assignments) files sources =
      if isCaught f then .exit 1 "" (faultText f) else .escape f := by
  unfold run
  simp only [hcommand, hload]

section Loaded

variable (hcommand : Command.ofName? word = some command) (hload : loaded reader files = .ok es)
include hcommand hload

/-- A fault of the file to run escapes. -/
theorem run_of_unreadable (hsource : expression? command operand files = .error f) :
    run reader limit (word :: operand :: assignments) files sources = .escape f := by
  unfold run
  simp only [hcommand, hload, hsource]

/-- A file to run that is missing is named. -/
theorem run_of_missing (hsource : expression? command operand files = .ok none) :
    run reader limit (word :: operand :: assignments) files sources =
      failure ["Error: file not found: " ++ operand] := by
  unfold run
  simp only [hcommand, hload, hsource]

/-- With settings and a source the calculation decides. -/
theorem run_of_source {source : String}
    (hsource : expression? command operand files = .ok (some source)) :
    run reader limit (word :: operand :: assignments) files sources =
      calculate limit command es source assignments sources := by
  unfold run
  simp only [hcommand, hload, hsource]

end Loaded

section Answer

variable {source line : String} {d : Desk}

/-- An answer is one line of output, behind the log. -/
theorem calculate_of_answered
    (h : answer command es source assignments (Desk.fresh sources) = .ok line d) :
    calculate limit command es source assignments sources =
      behindLog limit es d (.exit 0 (line ++ "\n") (log es d)) := by
  unfold calculate
  rw [h, ← lines_singleton]

/-- A fault that is reported goes to the error output, behind the log. -/
theorem calculate_of_failed
    (h : answer command es source assignments (Desk.fresh sources) = .error f d)
    (hf : Reported f) :
    calculate limit command es source assignments sources =
      behindLog limit es d (.exit 1 "" (log es d ++ faultText f)) := by
  have hcaught : isCaught f = true := hf
  unfold calculate
  rw [h]
  exact congrArg (behindLog limit es d) (if_pos hcaught)

/-- A variable out of range escapes. -/
theorem calculate_of_refused
    (h : answer command es source assignments (Desk.fresh sources) =
      .error (.refusal .tooLarge) d) :
    calculate limit command es source assignments sources =
      behindLog limit es d (.escape (.refusal .tooLarge)) := by
  unfold calculate
  rw [h]
  rfl

/-- What cannot be logged ends the run, whatever the command would have made of
the expression. -/
theorem calculate_of_stop {f : OutsideFault}
    (hstop : stop? limit es (preparedDesk es source assignments sources) = some f) :
    calculate limit command es source assignments sources = .escape (.outside f) := by
  have hjournal := journal_answer command es source assignments sources
  unfold calculate
  cases hanswer : answer command es source assignments (Desk.fresh sources) with
  | ok text d =>
      rw [hanswer] at hjournal
      exact behindLog_of_stop ((stop?_congr hjournal).trans hstop) _
  | error g d =>
      rw [hanswer] at hjournal
      exact behindLog_of_stop ((stop?_congr hjournal).trans hstop) _

/-- **How a calculation ends whose work can be logged**: a variable is out of
range, or a fault is reported, whatever the command; or else every command has a
line to write. -/
theorem calculate_cases {depth : Int} {vars : List (String × Number)} (h : Usable es depth vars)
    (hstop : stop? limit es (preparedDesk es source assignments sources) = none) :
    ((∃ v ∈ vars, v.2.toDouble? = none) ∧ ∀ command,
      calculate limit command es source assignments sources = .escape (.refusal .tooLarge)) ∨
    (∃ f d, prepare es source assignments (Desk.fresh sources) = .error f d ∧ ∀ command,
      calculate limit command es source assignments sources =
        .exit 1 "" (log es d ++ faultText f)) ∨
    ∃ tree d, prepare es source assignments (Desk.fresh sources) = .ok tree d ∧ ∀ command,
      ∃ line, Says command es tree d.sources line ∧ '\n' ∉ line.toList ∧
        calculate limit command es source assignments sources =
          .exit 0 (line ++ "\n") (log es d) := by
  rcases answer_cases h source assignments sources with
    ⟨hrange, d, hprepare, hanswer⟩ | ⟨f, d, hf, hprepare, hanswer⟩ | ⟨tree, d, hprepare, hanswer⟩
  · rw [preparedDesk_of_error hprepare] at hstop
    refine .inl ⟨hrange, fun command => ?_⟩
    rw [calculate_of_refused (hanswer command), behindLog_of_none hstop]
  · rw [preparedDesk_of_error hprepare] at hstop
    refine .inr (.inl ⟨f, d, hprepare, fun command => ?_⟩)
    rw [calculate_of_failed (hanswer command) hf, behindLog_of_none hstop]
  · rw [preparedDesk_of_ok hprepare] at hstop
    refine .inr (.inr ⟨tree, d, hprepare, fun command => ?_⟩)
    obtain ⟨line, s, hline, hsaid, hone⟩ := hanswer command
    have hstop' : stop? limit es { d with sources := s } = none := hstop
    refine ⟨line, hsaid, hone, ?_⟩
    rw [calculate_of_answered hline, behindLog_of_none hstop']
    rfl

end Answer

/-- A calculation ends in one of the ways of a run. -/
theorem calculate_ends (hcommand : Command.ofName? word = some command)
    (hload : loaded reader files = .ok es) {source : String}
    (hsource : expression? command operand files = .ok (some source)) :
    Ends reader limit files sources (word :: operand :: assignments)
      (calculate limit command es source assignments sources) := by
  cases hstop : stop? limit es (preparedDesk es source assignments sources) with
  | some f =>
      rw [calculate_of_stop hstop]
      exact .escaped (.log hcommand hload hsource hstop)
  | none =>
      obtain ⟨depth, vars, husable⟩ := Settings.usable_of_load hload
      rcases calculate_cases husable hstop with
        ⟨⟨v, hv, hrange⟩, hends⟩ | ⟨f, d, hprepare, hends⟩ | ⟨tree, d, hprepare, hends⟩
      · have hmem : (.text v.1, .scalar (.number v.2)) ∈ Settings.variableEntries vars :=
          List.mem_map.mpr ⟨v, hv, rfl⟩
        rw [hends command]
        exact .escaped (.outOfRange hcommand hload hsource husable.named hmem hrange hstop)
      · rw [hends command]
        exact .failed rfl hcommand hload hsource hprepare (complains_faultText f)
      · obtain ⟨line, hsaid, hone, hend⟩ := hends command
        rw [hend]
        exact .answered rfl hcommand hload hsource hprepare hsaid hone

/-- A directory in the place of the file to run is a fault. -/
theorem expression?_of_directory (hfind : files.find? operand = some .directory) :
    expression? .run operand files = .error (.directory operand) := by
  simp only [expression?, hfind, if_true]
  rfl

/-- The file to run is read as an expression. -/
theorem expression?_of_file {bytes : List UInt8}
    (hfind : files.find? operand = some (.file bytes)) :
    expression? .run operand files = (expressionIn operand (.file bytes)).map some := by
  simp only [expression?, hfind, if_true]

/-- Bytes that are no text are a fault. -/
theorem expressionIn_of_decode {bytes : List UInt8} {e : Text.Utf8Error}
    (hdecode : Text.decode bytes = .error e) :
    expressionIn operand (.file bytes) = .error (.encoding e) := by
  simp only [expressionIn, hdecode]

/-- With the settings loaded, a run ends by what stands in the place of its
expression. -/
theorem loaded_ends (hcommand : Command.ofName? word = some command)
    (hload : loaded reader files = .ok es) :
    Ends reader limit files sources (word :: operand :: assignments)
      (run reader limit (word :: operand :: assignments) files sources) := by
  have hsource : ∀ source, expression? command operand files = .ok (some source) →
      Ends reader limit files sources (word :: operand :: assignments)
        (run reader limit (word :: operand :: assignments) files sources) := by
    intro source hsource
    rw [run_of_source hcommand hload hsource]
    exact calculate_ends hcommand hload hsource
  cases command with
  | check | eval => exact hsource operand rfl
  | run =>
      cases hfind : files.find? operand with
      | none =>
          have hmissing : expression? .run operand files = .ok none := by
            simp only [expression?, hfind, if_true]
          have hnotFound : Complains "Error: file not found: " := by decide
          rw [run_of_missing hcommand hload hmissing]
          exact .refused (hnotFound.append operand).line
      | some entry =>
          cases entry with
          | directory =>
              rw [run_of_unreadable hcommand hload (expression?_of_directory hfind)]
              exact .escaped (.directory hcommand hload hfind)
          | file bytes =>
              have hfile := expression?_of_file hfind
              cases hdecode : Text.decode bytes with
              | ok cs =>
                  refine hsource (String.ofList (Text.stripChars (Text.unifyLines cs))) ?_
                  simp only [hfile, expressionIn, hdecode]
                  rfl
              | error e =>
                  rw [expressionIn_of_decode hdecode] at hfile
                  rw [run_of_unreadable hcommand hload hfile]
                  exact .escaped (.encoding hcommand hload hfind hdecode)

/-- With the settings not loaded, a run ends by what is wrong with them. -/
theorem unloaded_ends (hcommand : Command.ofName? word = some command)
    (hload : loaded reader files = .error f) :
    Ends reader limit files sources (word :: operand :: assignments)
      (run reader limit (word :: operand :: assignments) files sources) := by
  rw [run_of_unloaded hcommand hload]
  rcases (load_failsOnly _ _ _).of_error hload with hf | hf
  · have hcaught : isCaught f = true := hf
    rw [if_pos hcaught]
    exact .refused (complains_faultText f)
  · have hescapes : ¬ isCaught f = true := hf.not_reported
    rw [if_neg hescapes]
    exact .escaped (.settings hcommand hload hf)

end Cases

/-! ### Every run -/

section Run

variable (reader : Settings.Reader) (limit : LogLimit)

/-- A run ends in one of these ways. -/
theorem ends_run (arguments : List String) (files : FileTree) (sources : Sources) :
    Ends reader limit files sources arguments (run reader limit arguments files sources) := by
  rcases arguments with _ | ⟨word, rest⟩
  · exact .refused (by decide)
  · cases hcommand : Command.ofName? word with
    | none =>
        have hunknown : Complains "Unknown command: " := by decide
        rw [run_of_unknown hcommand]
        exact .refused (hunknown.append word).line
    | some command =>
        rcases rest with _ | ⟨operand, assignments⟩
        · have husage : Complains "Usage: strmath " := by decide
          rw [run_of_incomplete hcommand]
          exact .refused (((husage.append _).append _).append _ |>.append _).line
        · cases hload : loaded reader files with
          | error f => exact unloaded_ends hcommand hload
          | ok es => exact loaded_ends hcommand hload

variable {reader limit}

/-- What escapes does so. -/
theorem run_of_escapes {arguments : List String} {files : FileTree} {sources : Sources} {f : Fault}
    (h : Escapes reader limit files sources arguments f) :
    run reader limit arguments files sources = .escape f := by
  cases h with
  | settings hcommand hload hf =>
      have hescapes : ¬ isCaught f = true := hf.not_reported
      rw [run_of_unloaded hcommand hload, if_neg hescapes]
  | directory hcommand hload hfind =>
      exact run_of_unreadable hcommand hload (expression?_of_directory hfind)
  | encoding hcommand hload hfind hdecode =>
      have hfile := expression?_of_file hfind
      rw [expressionIn_of_decode hdecode] at hfile
      exact run_of_unreadable hcommand hload hfile
  | log hcommand hload hsource hstop =>
      rw [run_of_source hcommand hload hsource]
      exact calculate_of_stop hstop
  | @outOfRange word operand source assignments command es vars name n hcommand hload hsource
      hvars hmem hrange hstop =>
      obtain ⟨depth, numbers, husable⟩ := Settings.usable_of_load hload
      obtain rfl : Settings.variableEntries numbers = vars := by
        simpa [husable.named] using hvars
      obtain ⟨v, hv, hentry⟩ := List.mem_map.mp hmem
      obtain rfl : v.2 = n := by
        simpa using congrArg Prod.snd hentry
      have hnone := Settings.converted?_eq_none.mpr ⟨v, hv, hrange⟩
      obtain ⟨d, hd⟩ := prepare_refused husable hnone source assignments sources
      rw [preparedDesk_of_error hd] at hstop
      rw [run_of_source hcommand hload hsource,
        calculate_of_refused (bind_eq_error.mpr (.inl hd)), behindLog_of_none hstop]

/-- **A run writes one line or says what is wrong**, unless a fault escapes of
which there are five: of the settings file, of a directory and of bytes in the
place of an expression, of the log, and of a variable out of range. -/
theorem run_ends (reader : Settings.Reader) (limit : LogLimit) (arguments : List String)
    (files : FileTree) (sources : Sources) :
    Ends reader limit files sources arguments (run reader limit arguments files sources) ∧
    ∀ f, run reader limit arguments files sources = .escape f ↔
      Escapes reader limit files sources arguments f := by
  have hends := ends_run reader limit arguments files sources
  refine ⟨hends, fun f => ⟨fun hescape => ?_, run_of_escapes⟩⟩
  rw [hescape] at hends
  cases hends with
  | escaped hescapes => exact hescapes

end Run

/-- A reader that knows that an empty text holds nothing. -/
def emptyReader : Settings.Reader :=
  Settings.knowing [] .nothing

/-- A directory that is run escapes as a fault. -/
theorem run_directory_escapes :
    run emptyReader (fun _ => none) ["run", "d"] ⟨[(["d"], .directory)]⟩ (.fresh fun _ => 0) =
      .escape (.directory "d") := by
  have hload : loaded emptyReader ⟨[(["d"], .directory)]⟩ = .ok Settings.defaults := by
    have hfind : (⟨[(["d"], .directory)]⟩ : FileTree).find? Settings.fileName = none := by
      decide +kernel
    rw [loaded, hfind]
    rfl
  exact run_of_escapes (.directory rfl hload (by decide +kernel))

/-! ### Reading and evaluating -/

/-- Two runs end alike, the one with word that the expression can be read and
the other with a value. -/
inductive Alike : Ending → Ending → Prop
  | written (x : Float) (errors : String) :
      Alike (.exit 0 "OK\n" errors) (.exit 0 (Double.text x ++ "\n") errors)
  | reported (errors : String) : Alike (.exit 1 "" errors) (.exit 1 "" errors)
  | escaped (f : Fault) : Alike (.escape f) (.escape f)

/-- To check and to evaluate the same source under settings that can be used
ends alike. -/
theorem calculate_alike {es : Entries} {depth : Int} {vars : List (String × Number)}
    (h : Usable es depth vars) (limit : LogLimit) (source : String) (assignments : List String)
    (sources : Sources) :
    Alike (calculate limit .check es source assignments sources)
      (calculate limit .eval es source assignments sources) := by
  cases hstop : stop? limit es (preparedDesk es source assignments sources) with
  | some f =>
      rw [calculate_of_stop hstop, calculate_of_stop hstop]
      exact .escaped _
  | none =>
      rcases calculate_cases h hstop with
        ⟨-, hends⟩ | ⟨f, d, -, hends⟩ | ⟨tree, d, -, hends⟩
      · rw [hends .check, hends .eval]
        exact .escaped _
      · rw [hends .check, hends .eval]
        exact .reported _
      · obtain ⟨word, hword, -, hchecked⟩ := hends .check
        obtain ⟨line, ⟨x, s, -, hformat⟩, -, hevaluated⟩ := hends .eval
        obtain ⟨y, hy⟩ := h.formatValue_eq_ok x
        obtain rfl : word = "OK" := hword
        obtain rfl : line = Double.text y := Except.ok.inj (hformat.symm.trans hy)
        rw [hchecked, hevaluated]
        exact .written y (log es d)

/-- **Checking and evaluating end alike**, and what is logged up to then is the
same, also when a fault escapes. -/
theorem check_alike_eval (reader : Settings.Reader) (limit : LogLimit) (expression : String)
    (assignments : List String) (files : FileTree) (sources : Sources) :
    Alike (run reader limit ("check" :: expression :: assignments) files sources)
      (run reader limit ("eval" :: expression :: assignments) files sources) ∧
    ∀ settings,
      log settings (deskBehind (answer .check settings expression assignments
        (Desk.fresh sources))) =
      log settings (deskBehind (answer .eval settings expression assignments
        (Desk.fresh sources))) := by
  constructor
  · cases hload : loaded reader files with
    | error f =>
        rw [run_of_unloaded rfl hload, run_of_unloaded rfl hload]
        by_cases hcaught : isCaught f = true
        · rw [if_pos hcaught]
          exact .reported _
        · rw [if_neg hcaught]
          exact .escaped f
    | ok es =>
        obtain ⟨depth, vars, husable⟩ := Settings.usable_of_load hload
        rw [run_of_source rfl hload rfl, run_of_source rfl hload rfl]
        exact calculate_alike husable limit expression assignments sources
  · intro settings
    exact log_congr ((journal_answer ..).trans (journal_answer ..).symm)

end CommandLine

end Reckon
