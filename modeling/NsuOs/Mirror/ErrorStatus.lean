import NsuOs.Mirror.Reports

/-!
# When the status of `run` tells of every error

`create_reverse_folder` returns `OK` once its directory is made, whatever `fill_folder` returned, so
an error inside an argument's directory does not reach `run`. What remains is an error for the
argument itself. The outcome of a call is followed through what it records: whether some call
returned `ERROR`, and whether every entry was copied if none did.
-/
namespace NsuOs.Mirror

/-- Some call returned `ERROR`. -/
def Failed (notes : List (Note Entry)) : Prop := ∃ call, Note.failed call ∈ notes

/-- What is recorded from one machine to another: errors exactly when they are expected, and the
copies of some entries otherwise. -/
def Outcome (before after : Machine Unit Entry) (expected : Prop) (entries : List Entry) : Prop :=
  ∃ made, after.notes = before.notes ++ made ∧ (Failed made ↔ expected) ∧
    (¬expected → ∀ entry ∈ entries, Note.copied entry ∈ made)

variable {before middle after : Machine Unit Entry} {expected more other : Prop}
  {entries others : List Entry}

/-- Errors in a list of notes are errors in one of its parts. -/
theorem failed_append (first second : List (Note Entry)) :
    Failed (first ++ second) ↔ Failed first ∨ Failed second := by
  unfold Failed
  simp only [List.mem_append, exists_or]

/-- One outcome after the other. -/
theorem Outcome.trans (first : Outcome before middle expected entries)
    (second : Outcome middle after more others) :
    Outcome before after (expected ∨ more) (entries ++ others) := by
  obtain ⟨made, notes, failed, copied⟩ := first
  obtain ⟨further, later, wrong, added⟩ := second
  refine ⟨made ++ further, ?_, ?_, ?_⟩
  · rw [later, notes, List.append_assoc]
  · rw [failed_append, failed, wrong]
  · intro clean entry member
    have early : ¬expected := fun bad => clean (.inl bad)
    have late : ¬more := fun bad => clean (.inr bad)
    rcases List.mem_append.mp member with here | there
    · exact List.mem_append_left _ (copied early entry here)
    · exact List.mem_append_right _ (added late entry there)

/-- The same outcome in other words. -/
theorem Outcome.congr (outcome : Outcome before after expected entries) (same : expected ↔ other)
    (fewer : ∀ entry ∈ others, entry ∈ entries) : Outcome before after other others := by
  obtain ⟨made, notes, failed, copied⟩ := outcome
  refine ⟨made, notes, failed.trans same, ?_⟩
  intro clean entry member
  exact copied (fun bad => clean (same.mp bad)) entry (fewer entry member)

/-- After an error nothing is said of the entries. -/
theorem Outcome.bad (outcome : Outcome before after expected entries) (wrong : expected)
    (expectedToo : other) (others : List Entry) : Outcome before after other others := by
  obtain ⟨made, notes, failed, -⟩ := outcome
  exact ⟨made, notes, iff_of_true (failed.mpr wrong) expectedToo,
    fun clean => absurd expectedToo clean⟩

/-- A call that returns `ERROR`. -/
theorem outcome_fail (machine : Machine Unit Entry) (call : Call) :
    Outcome machine (machine.fail call).2 True [] :=
  ⟨[.failed call], rfl, iff_of_true ⟨call, List.mem_singleton_self _⟩ trivial,
    fun no => absurd trivial no⟩

/-- Notes that are not of errors. -/
theorem outcome_note (machine : Machine Unit Entry) {notes : List (Note Entry)}
    (quiet : ∀ call, Note.failed call ∉ notes) : Outcome machine (machine.note notes) False [] := by
  refine ⟨notes, rfl, iff_of_false ?_ id, by simp⟩
  rintro ⟨call, member⟩
  exact quiet call member

/-- The copy of an entry is recorded. -/
theorem outcome_copied (machine : Machine Unit Entry) (entry : Entry) :
    Outcome machine (machine.note [.copied entry]) False [entry] := by
  refine ⟨[.copied entry], rfl, iff_of_false ?_ id, ?_⟩
  · rintro ⟨call, member⟩
    simp at member
  · intro _ other member
    rw [List.mem_singleton.mp member]
    exact List.mem_singleton_self _

/-- The rounds for a size that is not zero are one more than those for what is left. -/
theorem rounds_eq {left : Nat} (pending : left ≠ 0) :
    rounds left = rounds (left - toRead left) + 1 := by
  unfold rounds toRead bufferSize
  split <;> omega

/-- The loop of `create_reverse_file` succeeds exactly when no call about the rest fails. -/
theorem reverseRounds_ok_iff (io : Stdio) (content : List UInt8) (round left : Nat)
    (output : Output) :
    (reverseRounds io content round left output).1 = .ok ↔
      ∀ k < rounds left,
        (io.round (round + k)).flagged = false ∧ (io.round (round + k)).seekFails = false := by
  induction left using Nat.strong_induction_on generalizing round output with
  | _ left ih =>
    rw [reverseRounds]
    by_cases done : left = 0
    · have none : rounds left = 0 := by
        rw [done]
        decide
      rw [if_pos done, none]
      simp
    · have bounds := toRead_bounds done
      have legal : ¬min (io.round round).written (toRead left) = sizeError := by
        have limit : bufferSize < sizeError := by decide
        omega
      rw [if_neg done, rounds_eq done, Nat.forall_lt_succ_left]
      cases flagged : (io.round round).flagged with
      | true => simp
      | false =>
        cases seek : (io.round round).seekFails with
        | true => simp
        | false =>
          simp only [legal, and_self, true_and, if_false, Bool.false_eq_true]
          rw [ih (left - toRead left) (by omega)]
          simp only [Nat.add_assoc, Nat.add_comm 1]

/-- `create_reverse_file` succeeds on open files exactly when no call about them fails. -/
theorem reverseContent_ok_iff (io : Stdio) (content : List UInt8) :
    (reverseContent io content).1 = .ok ↔ io.Passes content.length := by
  unfold reverseContent Stdio.Passes
  cases io.seekEndFails with
  | true => simp
  | false =>
    cases io.seekSetFails with
    | true => simp
    | false => simp [reverseRounds_ok_iff]

/-- `create_reverse_file` returns `ERROR` exactly when some call fails, and otherwise copies. -/
theorem createReverseFile_outcome (entry : Entry) (inputPath outputPath : CString)
    (machine : Machine Unit Entry) :
    ∃ status after,
      createReverseFile reportSystem entry inputPath outputPath machine = (status, after) ∧
      (status = .error ↔ ¬entry.2.answers.CleanFile) ∧
      Outcome machine after (¬entry.2.answers.CleanFile) [entry] := by
  have failing : ∀ (machine : Machine Unit Entry), ¬entry.2.answers.CleanFile →
      ∃ status after, machine.fail .createReverseFile = (status, after) ∧
        (status = .error ↔ ¬entry.2.answers.CleanFile) ∧
        Outcome machine after (¬entry.2.answers.CleanFile) [entry] := by
    intro machine wrong
    exact ⟨.error, _, rfl, iff_of_true rfl wrong, (outcome_fail machine _).bad trivial wrong _⟩
  unfold createReverseFile
  cases input : entry.2.answers.inputFails with
  | true =>
    have refused : reportSystem.openInput entry inputPath machine.system = false := by
      simp [reportSystem, input]
    rw [refused]
    apply failing
    rintro ⟨opened, -⟩
    rw [input] at opened
    cases opened
  | false =>
    have accepted : reportSystem.openInput entry inputPath machine.system = true := by
      simp [reportSystem, input]
    rw [accepted, if_pos rfl]
    cases output : entry.2.answers.outputFails with
    | true =>
      have refused : reportSystem.openOutput entry outputPath machine.system = none := by
        simp [reportSystem, output]
      rw [refused]
      apply failing
      rintro ⟨-, opened, -⟩
      rw [output] at opened
      cases opened
    | false =>
      have opened : reportSystem.openOutput entry outputPath machine.system = some () := by
        simp [reportSystem, output]
      have passes := reverseContent_ok_iff entry.2.answers.stdio entry.2.answers.content
      cases reversed : reverseContent entry.2.answers.stdio entry.2.answers.content with
      | mk result written =>
        have answered : reverseContent (reportSystem.stdio entry)
            (reportSystem.content entry inputPath ()) = (result, written) := reversed
        have clean : entry.2.answers.CleanFile ↔ result = .ok := by
          rw [reversed] at passes
          rw [passes]
          simp [Answers.CleanFile, input, output]
        rw [opened]
        simp only [answered]
        cases result with
        | error =>
          apply failing
          rw [clean]
          simp
        | ok =>
          have fine : entry.2.answers.CleanFile := clean.mpr rfl
          refine ⟨.ok, _, rfl, by simp [fine], (outcome_copied machine entry).congr ?_ (by simp)⟩
          simp [fine]

/-- An entry is a directory or a regular file, and nothing about it or below it fails. -/
def CleanKind (name : CString) (type : EntryType) (report : Report) : Prop :=
  match type with
  | .dir => isCurrOrPrevDir name = true ∨ (report.answers.mkdirFails = false ∧ report.Clean)
  | .reg => report.answers.CleanFile
  | .other => False

/-- An entry and everything below it. -/
def insideEntry (place : List Nat) (name : CString) (type : EntryType) (report : Report) :
    List Entry :=
  if isCurrOrPrevDir name = true ∧ type = .dir then []
  else (place, report) :: if type = .dir then report.inside place else []

/-- The first entry is clean and the others are. -/
theorem cleanEntries_cons {name : CString} {type : EntryType} {report : Report}
    {rest : List (CString × EntryType × Report)} :
    CleanEntries ((name, type, report) :: rest) ↔
      (report.answers.CleanName name ∧ CleanKind name type report) ∧ CleanEntries rest := by
  cases type <;> simp [CleanEntries, CleanKind]

/-- A call settles a report when it returns `ERROR` exactly if the directory cannot be made, and
records an error exactly if something fails. -/
def Settles (call : FolderCall Unit Entry) (report : Report) : Prop :=
  ∀ place origin reverse machine, ∃ status after,
    call (place, report) origin reverse machine = some (status, after) ∧
      (status = .error ↔ report.answers.mkdirFails = true) ∧
      Outcome machine after (report.answers.mkdirFails = true ∨ ¬report.Clean)
        ((place, report) :: report.inside place)

variable {call : FolderCall Unit Entry} {name : CString} {type : EntryType} {report : Report}
  {place : List Nat}

/-- Nothing recorded is no error. -/
theorem outcome_refl (machine : Machine Unit Entry) : Outcome machine machine False [] := by
  have nothing : Outcome machine (machine.note []) False [] := outcome_note machine (by simp)
  have same : machine.note [] = machine := by simp [Machine.note]
  rw [same] at nothing
  exact nothing

/-- The copy of a directory or a file returns `ERROR` only if something is wrong with it, and
records an error exactly then. -/
theorem copyEntry_outcome (name : CString) (settles : Settles call report) (known : type ≠ .other)
    (place : List Nat) (buffers : Buffers) (machine : Machine Unit Entry) :
    ∃ status after, copyEntry reportSystem call ⟨name, type, (place, report)⟩ .ok buffers machine =
        some (status, after) ∧ (status = .error → ¬CleanKind name type report) ∧
      Outcome machine after (¬CleanKind name type report)
        (insideEntry place name type report) := by
  unfold copyEntry
  cases type with
  | dir =>
    by_cases special : isCurrOrPrevDir name = true
    · have clean : CleanKind name .dir report := .inl special
      refine ⟨.ok, machine, by simp [special], by simp, ?_⟩
      exact (outcome_refl machine).congr (by simp [clean]) (by simp [insideEntry, special])
    · obtain ⟨status, after, called, returned, outcome⟩ :=
        settles place buffers.pathNewOrigin.text buffers.pathNewRev.text machine
      have kind : ¬CleanKind name .dir report ↔
          report.answers.mkdirFails = true ∨ ¬report.Clean := by
        simp only [CleanKind, special, false_or, not_and_or, Bool.not_eq_false, Bool.false_eq_true]
      refine ⟨status, after, by simpa [special] using called, ?_, ?_⟩
      · intro wrong
        exact kind.mpr (.inl (returned.mp wrong))
      · exact outcome.congr kind.symm (by simp [insideEntry, special])
  | reg =>
    obtain ⟨status, after, called, returned, outcome⟩ := createReverseFile_outcome (place, report)
      buffers.pathNewOrigin.text buffers.pathNewRev.text machine
    refine ⟨status, after, by simp [called], ?_, ?_⟩
    · intro wrong
      exact returned.mp wrong
    · exact outcome.congr Iff.rfl (by simp [insideEntry])
  | other => exact absurd rfl known

/-- The notes for an entry are not of errors. -/
theorem buildNotes_quiet (buffers : Buffers) (origin reverse name : CString) (call : Call) :
    Note.failed call ∉ buffers.buildNotes (η := Entry) origin reverse name := by
  simp [Buffers.buildNotes]

/-- The notes after an entry are not of errors. -/
theorem clearNotes_quiet (buffers : Buffers) (call : Call) :
    Note.failed call ∉ buffers.clearNotes (η := Entry) := by
  simp [Buffers.clearNotes]

/-- `is_correct_len_folder` fails only when the name does not fit. -/
theorem isCorrectLenFolder_none {buffers : Buffers}
    (refused : isCorrectLenFolder reportSystem buffers ⟨name, type, (place, report)⟩ = none) :
    ¬report.answers.CleanName name := by
  rintro ⟨reallocs, -⟩
  unfold isCorrectLenFolder at refused
  split at refused
  · rename_i long
    obtain ⟨first, second, third⟩ := reallocs long
    simp [reportSystem, first, second, third] at refused
  · cases refused

/-- `is_correct_len_folder` succeeds only when the buffers suffice or can be changed. -/
theorem isCorrectLenFolder_some {buffers changed : Buffers}
    (accepted : isCorrectLenFolder reportSystem buffers ⟨name, type, (place, report)⟩ =
      some changed) (formats : report.answers.formats = true) : report.answers.CleanName name := by
  refine ⟨fun long => ?_, formats⟩
  by_cases all : (report.answers.reallocs 0 && report.answers.reallocs 1 &&
      report.answers.reallocs 2) = true
  · simpa [and_assoc] using all
  · have refused : isCorrectLenFolder reportSystem buffers ⟨name, type, (place, report)⟩ = none :=
      (if_pos long).trans (if_neg all)
    rw [refused] at accepted
    cases accepted

/-- The copy of an entry ends. -/
theorem exists_copyEntry (settles : Settles call report) (name : CString) (type : EntryType)
    (place : List Nat) (buffers : Buffers) (machine : Machine Unit Entry) :
    ∃ result, copyEntry reportSystem call ⟨name, type, (place, report)⟩ .ok buffers machine =
      some result := by
  by_cases known : type = .other
  · exact ⟨(.ok, machine), by simp [copyEntry, known]⟩
  · obtain ⟨status, after, copied, -⟩ :=
      copyEntry_outcome name settles known place buffers machine
    exact ⟨_, copied⟩

/-- A step of the loop records an error and ends it, or errors exactly if something is wrong with
the entry. -/
def Onward.Outcome (machine : Machine Unit Entry) (clean : Prop) (inside : List Entry) :
    Onward Unit Entry → Prop
  | .stop after => Mirror.Outcome machine after True [] ∧ ¬clean
  | .next _ after => Mirror.Outcome machine after (¬clean) inside

/-- What a step of the loop of `fill_folder` does. -/
theorem EntryStep.outcome (settles : Settles call report) {origin reverse : CString}
    {buffers : Buffers} {machine : Machine Unit Entry} {onward : Onward Unit Entry}
    (step : EntryStep reportSystem call origin reverse ⟨name, type, (place, report)⟩ .ok buffers
      machine onward) :
    onward.Outcome machine (report.answers.CleanName name ∧ CleanKind name type report)
      (insideEntry place name type report) := by
  cases step with
  | refused long =>
    exact ⟨outcome_fail machine .fillFolder, fun clean => isCorrectLenFolder_none long clean.1⟩
  | unbuilt changed fits fails =>
    have built := outcome_note machine (buildNotes_quiet changed origin reverse name)
    have refused : report.answers.formats = false := fails
    refine ⟨(built.trans (outcome_fail _ .fillFolder)).bad (.inr trivial) trivial _, ?_⟩
    rintro ⟨⟨-, formats⟩, -⟩
    rw [refused] at formats
    cases formats
  | uncopied changed status middle fits formats copy wrong =>
    have built := outcome_note machine (buildNotes_quiet changed origin reverse name)
    by_cases known : type = .other
    · have passed : copyEntry reportSystem call ⟨name, type, (place, report)⟩ .ok
          (changed.build origin reverse name)
          (machine.note (changed.buildNotes origin reverse name)) =
            some (.ok, machine.note (changed.buildNotes origin reverse name)) := by
        simp [copyEntry, known]
      obtain ⟨-, rfl⟩ := Prod.mk.inj (Option.some.inj (passed.symm.trans copy))
      refine ⟨(built.trans (outcome_fail _ .fillFolder)).bad (.inr trivial) trivial _, ?_⟩
      rintro ⟨-, kind⟩
      rw [known] at kind
      exact kind
    · obtain ⟨status', after, copied, returned, outcome⟩ := copyEntry_outcome name settles known
        place (changed.build origin reverse name)
        (machine.note (changed.buildNotes origin reverse name))
      obtain ⟨rfl, rfl⟩ := Prod.mk.inj (Option.some.inj (copied.symm.trans copy))
      have failed : status' = .error := wrong.resolve_right known
      exact ⟨((built.trans outcome).trans (outcome_fail _ .fillFolder)).bad (.inr trivial)
        trivial _, fun clean => returned failed clean.2⟩
  | copied changed middle fits formats copy known =>
    have built := outcome_note machine (buildNotes_quiet changed origin reverse name)
    have named := isCorrectLenFolder_some fits formats
    obtain ⟨status, after, copied, -, outcome⟩ := copyEntry_outcome name settles known place
      (changed.build origin reverse name) (machine.note (changed.buildNotes origin reverse name))
    obtain ⟨rfl, rfl⟩ := Prod.mk.inj (Option.some.inj (copied.symm.trans copy))
    have cleared := outcome_note after (clearNotes_quiet (changed.build origin reverse name))
    exact ((built.trans outcome).trans cleared).congr (by simp [named]) (by simp)

/-- The loop of `fill_folder` records an error exactly if something about an entry fails, and
otherwise copies all entries. -/
theorem fillEntries_outcome {entries : List (CString × EntryType × Report)}
    (settles : ∀ name type report, (name, type, report) ∈ entries → Settles call report)
    (origin reverse : CString) (place : List Nat) (i : Nat) (buffers : Buffers)
    (machine : Machine Unit Entry) :
    ∃ status after, fillEntries reportSystem call origin reverse (children place i entries) .ok
        buffers machine = some (status, after) ∧
      Outcome machine after (¬CleanEntries entries) (insideEntries place i entries) := by
  induction entries generalizing i buffers machine with
  | nil =>
    refine ⟨.ok, machine, rfl, (outcome_refl machine).congr ?_ (by simp [insideEntries])⟩
    simp [CleanEntries]
  | cons entry rest ih =>
    obtain ⟨name, type, report⟩ := entry
    have settled := settles name type report List.mem_cons_self
    obtain ⟨onward, step⟩ : ∃ onward, EntryStep reportSystem call origin reverse
        ⟨name, type, (place ++ [i], report)⟩ .ok buffers machine onward :=
      exists_entryStep fun changed _ _ => exists_copyEntry settled name type (place ++ [i]) _ _
    have first := step.outcome settled
    rw [children, step.fillEntries, cleanEntries_cons]
    cases onward with
    | stop after =>
      exact ⟨.error, after, rfl, first.1.bad trivial (fun clean => first.2 clean.1) _⟩
    | next changed middle =>
      obtain ⟨status, after, done, others⟩ := ih
        (fun name type report later => settles name type report (List.mem_cons_of_mem _ later))
        (i + 1) changed middle
      refine ⟨status, after, done, (Outcome.trans first others).congr ?_ ?_⟩
      · tauto
      · intro entry member
        simpa [insideEntries, insideEntry] using member

/-- Without its buffers, or if the directory cannot be read, `fill_folder` returns `ERROR`. -/
theorem fillFolder_refused (call : FolderCall Unit Entry) (report : Report)
    (wrong : ¬report.answers.CleanStart) (place : List Nat) (origin reverse : CString)
    (machine : Machine Unit Entry) :
    fillFolder reportSystem call (place, report) origin reverse machine =
      some (machine.fail .fillFolder) := by
  have malloc : ∀ k size, reportSystem.malloc (place, report) k size = report.answers.memory k :=
    fun _ _ => rfl
  unfold fillFolder
  cases opened : report.answers.openFails with
  | true => simp [reportSystem, opened]
  | false =>
    have accepted : reportSystem.opendir (place, report) origin machine.system =
        some (children place 0 report.entries) := by
      simp [reportSystem, opened]
    rw [accepted]
    simp only [malloc]
    cases first : report.answers.memory 0 with
    | none => rfl
    | some nameRev =>
      cases second : report.answers.memory 1 with
      | none => rfl
      | some pathNewRev =>
        cases third : report.answers.memory 2 with
        | none => rfl
        | some pathNewOrigin =>
          exact absurd ⟨opened, by simp [first], by simp [second], by simp [third]⟩ wrong

/-- Otherwise its loop goes over the entries. -/
theorem fillFolder_started (call : FolderCall Unit Entry) (report : Report)
    (start : report.answers.CleanStart) (place : List Nat) (origin reverse : CString)
    (machine : Machine Unit Entry) :
    ∃ nameRev pathNewRev pathNewOrigin, report.answers.memory 0 = some nameRev ∧
      fillFolder reportSystem call (place, report) origin reverse machine =
        fillEntries reportSystem call origin reverse (children place 0 report.entries) .ok
          ⟨⟨maxLenNameFile, nameRev⟩, ⟨maxLenNameFile + reverse.strlen, pathNewRev⟩,
            ⟨maxLenNameFile + origin.strlen, pathNewOrigin⟩⟩ machine := by
  obtain ⟨opened, first, second, third⟩ := start
  obtain ⟨nameRev, got⟩ := Option.ne_none_iff_exists'.mp first
  obtain ⟨pathNewRev, gotRev⟩ := Option.ne_none_iff_exists'.mp second
  obtain ⟨pathNewOrigin, gotOrigin⟩ := Option.ne_none_iff_exists'.mp third
  have accepted : reportSystem.opendir (place, report) origin machine.system =
      some (children place 0 report.entries) := by
    simp [reportSystem, opened]
  have malloc : ∀ k size, reportSystem.malloc (place, report) k size = report.answers.memory k :=
    fun _ _ => rfl
  refine ⟨nameRev, pathNewRev, pathNewOrigin, got, ?_⟩
  unfold fillFolder
  rw [accepted]
  simp only [malloc, got, gotRev, gotOrigin]

/-- `fill_folder` records an error exactly if something fails, and otherwise copies everything. -/
theorem fillFolder_outcome
    (settles : ∀ name type below, (name, type, below) ∈ report.entries → Settles call below)
    (place : List Nat) (origin reverse : CString) (machine : Machine Unit Entry) :
    ∃ status after, fillFolder reportSystem call (place, report) origin reverse machine =
        some (status, after) ∧ Outcome machine after (¬report.Clean) (report.inside place) := by
  obtain ⟨answers, entries⟩ := report
  have clean : (Report.mk answers entries).Clean ↔ answers.CleanStart ∧ CleanEntries entries := by
    simp [Report.Clean]
  by_cases start : answers.CleanStart
  · obtain ⟨nameRev, pathNewRev, pathNewOrigin, -, started⟩ :=
      fillFolder_started call (.mk answers entries) start place origin reverse machine
    obtain ⟨status, after, done, outcome⟩ := fillEntries_outcome settles origin reverse place
      0 ⟨⟨maxLenNameFile, nameRev⟩, ⟨maxLenNameFile + reverse.strlen, pathNewRev⟩,
        ⟨maxLenNameFile + origin.strlen, pathNewOrigin⟩⟩ machine
    refine ⟨status, after, started.trans done, outcome.congr ?_ ?_⟩
    · rw [clean]
      simp [start, Report.entries]
    · intro entry member
      simpa [Report.inside, Report.entries] using member
  · have wrong : ¬(Report.mk answers entries).Clean := by
      rw [clean]
      exact fun both => start both.1
    have refused := fillFolder_refused call (.mk answers entries) start place origin reverse
      machine
    exact ⟨.error, _, refused, (outcome_fail machine _).bad trivial wrong _⟩

/-- An entry is not deeper than the deepest. -/
theorem depth_le_depthReports {entries : List (CString × EntryType × Report)} {name : CString}
    {type : EntryType} {report : Report} (member : (name, type, report) ∈ entries) :
    report.depth ≤ depthReports entries := by
  induction entries with
  | nil => cases member
  | cons entry rest ih =>
    obtain ⟨other, kind, first⟩ := entry
    rcases List.mem_cons.mp member with same | later
    · have equal : report = first := by
        simpa using congrArg (fun triple => triple.2.2) same
      rw [equal]
      exact Nat.le_max_left _ _
    · exact Nat.le_trans (ih later) (Nat.le_max_right _ _)

/-- What lies below is less deep. -/
theorem depth_below {limit : Nat} {below : Report} (shallow : report.depth ≤ limit + 1)
    (member : (name, type, below) ∈ report.entries) : below.depth ≤ limit := by
  obtain ⟨answers, entries⟩ := report
  have less := depth_le_depthReports member
  simp only [Report.depth, Report.entries] at shallow less
  omega

/-- `create_reverse_folder` makes its directory, if it can, and fills it. -/
theorem createReverseFolder_succ (limit : Nat) (place : List Nat) (report : Report)
    (origin reverse : CString) (machine : Machine Unit Entry) :
    createReverseFolder reportSystem (limit + 1) (place, report) origin reverse machine =
      if report.answers.mkdirFails = true then some (machine.fail .createReverseFolder)
      else
        (fillFolder reportSystem (createReverseFolder reportSystem limit) (place, report) origin
          reverse (machine.note [.copied (place, report)])).map fun result => (.ok, result.2) := by
  simp only [createReverseFolder]
  cases made : report.answers.mkdirFails with
  | true =>
    have refused : reportSystem.mkdir (place, report) reverse machine.system = none := by
      simp [reportSystem, made]
    rw [refused]
    rfl
  | false =>
    have accepted : reportSystem.mkdir (place, report) reverse machine.system = some () := by
      simp [reportSystem, made]
    rw [accepted]
    rfl

/-- `create_reverse_folder` returns `ERROR` exactly if its own directory cannot be made, whatever
fails below. -/
theorem createReverseFolder_settles {limit : Nat} {report : Report}
    (shallow : report.depth ≤ limit) :
    Settles (createReverseFolder reportSystem limit) report := by
  induction limit generalizing report with
  | zero =>
    obtain ⟨answers, entries⟩ := report
    unfold Report.depth at shallow
    omega
  | succ limit ih =>
    intro place origin reverse machine
    rw [createReverseFolder_succ]
    cases made : report.answers.mkdirFails with
    | true => exact ⟨.error, _, rfl, by simp, (outcome_fail machine _).bad trivial (.inl rfl) _⟩
    | false =>
      have settles : ∀ name type below, (name, type, below) ∈ report.entries →
          Settles (createReverseFolder reportSystem limit) below :=
        fun name type below member => ih (depth_below shallow member)
      obtain ⟨status, after, done, outcome⟩ := fillFolder_outcome settles place origin reverse
        (machine.note [.copied (place, report)])
      rw [if_neg (by simp), done]
      refine ⟨.ok, after, rfl, by simp, ?_⟩
      exact ((outcome_copied machine (place, report)).trans outcome).congr (by simp) (by simp)

/-- The arguments with their places. -/
def arguments : Nat → List (CString × Report) → List (CString × Entry)
  | _, [] => []
  | i, (arg, report) :: rest => (arg, ([i], report)) :: arguments (i + 1) rest

/-- Every argument and every entry of its tree. -/
def everyEntry : Nat → List (CString × Report) → List Entry
  | _, [] => []
  | i, (_, report) :: rest => (([i], report) :: report.inside [i]) ++ everyEntry (i + 1) rest

/-- `run` stops at an argument: its target directory cannot be made, or `find_name_folder` fails,
which formats its output only when the argument has no slash. -/
def Stops (arg : CString × Report) : Prop :=
  arg.2.answers.mkdirFails = true ∨
    (strrchr arg.1 slash = none ∧ arg.2.answers.formats = false)

/-- `find_name_folder` fails only when it formats its output. -/
theorem findNameFolder_eq_none {formats : Bool} {path : CString} {block : Block} :
    findNameFolder formats path block = none ↔ strrchr path slash = none ∧ formats = false := by
  unfold findNameFolder
  cases strrchr path slash with
  | none => cases formats <;> simp
  | some pos => simp

/-- The loop of `run` returns `ERROR` when it stops at an argument; otherwise it returns `OK`, with
an error recorded exactly if something fails below some argument. -/
theorem runArgs_outcome {limit : Nat} {args : List (CString × Report)}
    (shallow : ∀ arg ∈ args, arg.2.depth ≤ limit) (i : Nat) (revFolder pathToFolder : Block)
    (machine : Machine Unit Entry) :
    ∃ exit after, runArgs reportSystem limit (arguments i args) (some revFolder)
        (some pathToFolder) machine = some (exit, after) ∧
      ((∃ arg ∈ args, Stops arg) → exit = .returned .error) ∧
      ((∀ arg ∈ args, ¬Stops arg) → exit = .returned .ok ∧
        Outcome machine after (∃ arg ∈ args, ¬arg.2.Clean) (everyEntry i args)) := by
  induction args generalizing i revFolder pathToFolder machine with
  | nil =>
    refine ⟨.returned .ok, machine, rfl, by simp, fun _ => ⟨rfl, ?_⟩⟩
    exact (outcome_refl machine).congr (by simp) (by simp [everyEntry])
  | cons arg rest ih =>
    obtain ⟨text, report⟩ := arg
    have formatting : reportSystem.formats (([i], report) : Entry) = report.answers.formats := rfl
    have stopped : Stops (text, report) → ∀ after, ∃ exit final,
        some (Exit.returned .error, after) = some (exit, final) ∧
          ((∃ arg ∈ (text, report) :: rest, Stops arg) → exit = .returned .error) ∧
          ((∀ arg ∈ (text, report) :: rest, ¬Stops arg) → exit = .returned .ok ∧
            Outcome machine final (∃ arg ∈ (text, report) :: rest, ¬arg.2.Clean)
              (everyEntry i ((text, report) :: rest))) := by
      intro stops after
      exact ⟨.returned .error, after, rfl, fun _ => rfl,
        fun none => absurd stops (none (text, report) List.mem_cons_self)⟩
    rw [arguments, runArgs, formatting]
    cases found : findNameFolder report.answers.formats text pathToFolder with
    | none => exact stopped (.inr (findNameFolder_eq_none.mp found)) machine
    | some named =>
      obtain ⟨path, origin, stored⟩ := named
      generalize rev : reverseText (revFolder.strncpy origin origin.strlen) = reversed
      have calls := createReverseFolder_settles (shallow _ List.mem_cons_self) [i] text
        (path.strcat reversed.text).text
        (machine.note [.wrote path.size stored, .wrote reversed.size origin.strlen,
          .wrote (path.strcat reversed.text).size ((path.strcat reversed.text).text.strlen + 1),
          .target (path.strcat reversed.text).text])
      obtain ⟨status, middle, called, returned, outcome⟩ := calls
      simp only [rev]
      rw [called, Option.bind_some]
      cases status with
      | error => exact stopped (.inl (returned.mp rfl)) middle
      | ok =>
        have made : ¬report.answers.mkdirFails = true := by
          intro fails
          exact absurd (returned.mpr fails) (by simp)
        have goes : ¬Stops (text, report) := by
          rintro (fails | fails)
          · exact made fails
          · rw [findNameFolder_eq_none.mpr fails] at found
            cases found
        obtain ⟨exit, after, done, error, ok⟩ := ih
          (fun arg later => shallow arg (List.mem_cons_of_mem _ later)) (i + 1) reversed
          (path.strcat reversed.text) middle
        refine ⟨exit, after, done, ?_, ?_⟩
        · rintro ⟨arg, member, stops⟩
          rcases List.mem_cons.mp member with rfl | later
          · exact absurd stops goes
          · exact error ⟨arg, later, stops⟩
        · intro none
          obtain ⟨fine, others⟩ := ok fun arg later => none arg (List.mem_cons_of_mem _ later)
          have noted : Outcome machine (machine.note [.wrote path.size stored,
              .wrote reversed.size origin.strlen,
              .wrote (path.strcat reversed.text).size ((path.strcat reversed.text).text.strlen + 1),
              .target (path.strcat reversed.text).text]) False [] :=
            outcome_note machine (by simp)
          refine ⟨fine, ((noted.trans outcome).trans others).congr ?_ ?_⟩
          · simp [made]
          · simp [everyEntry]

/-- The status tells of every error: an error of a call makes `run` return `ERROR`, and `run`
returns `OK` only if every argument and every entry below it was copied. -/
structure Honest (args : List (CString × Report)) (exit : Exit) (notes : List (Note Entry)) :
    Prop where
  /-- When a call failed, `run` returns `ERROR`. -/
  error : Failed notes → exit = .returned .error
  /-- When `run` returns `OK`, every entry was copied. -/
  ok : exit = .returned .ok → ∀ entry ∈ everyEntry 0 args, Note.copied entry ∈ notes

/-- One of the two buffers of `run` is not got, `run` stops at an argument, or nothing fails below
any argument. -/
def Reported (args : List (CString × Report)) (revFolder pathToFolder : Option (List UInt8)) :
    Prop :=
  (revFolder = none ∨ pathToFolder = none) ∨ (∃ arg ∈ args, Stops arg) ∨
    ∀ arg ∈ args, arg.2.Clean

/-- Without one of its buffers `run` records nothing and does not return `OK`. -/
theorem runArgs_crashes {limit : Nat} {args : List (CString × Entry)} (some_arg : args ≠ [])
    {revFolder pathToFolder : Option Block} (missing : revFolder = none ∨ pathToFolder = none) :
    ∃ exit, runArgs reportSystem limit args revFolder pathToFolder ⟨(), []⟩ =
        some (exit, ⟨(), []⟩) ∧ exit ≠ .returned .ok := by
  cases args with
  | nil => exact absurd rfl some_arg
  | cons arg rest =>
    obtain ⟨text, entry⟩ := arg
    cases pathToFolder with
    | none => exact ⟨.crashed, rfl, by simp⟩
    | some path =>
      have gone : revFolder = none := by simpa using missing
      rw [gone, runArgs]
      cases findNameFolder (reportSystem.formats entry) text path with
      | none => exact ⟨.returned .error, rfl, by simp⟩
      | some named => exact ⟨.crashed, rfl, by simp⟩

/-- For every list of arguments, every tree below them and every pattern of failures, `run` ends,
and its status tells of every error exactly if it does not depend on what happens inside the
directories: a buffer of its own is missing, it stops at an argument, or nothing fails inside. -/
theorem run_honest_iff (args : List (CString × Report))
    (revFolder pathToFolder : Option (List UInt8)) (limit : Nat)
    (shallow : ∀ arg ∈ args, arg.2.depth ≤ limit) :
    ∃ exit after, run reportSystem limit (arguments 0 args) revFolder pathToFolder ⟨(), []⟩ =
        some (exit, after) ∧
      (Honest args exit after.notes ↔ Reported args revFolder pathToFolder) := by
  cases args with
  | nil =>
    refine ⟨.returned .error, ⟨(), []⟩, rfl, iff_of_true ⟨fun _ => rfl, by simp⟩ (.inr (.inr ?_))⟩
    simp
  | cons first rest =>
    have nonempty : arguments 0 (first :: rest) ≠ [] := by simp [arguments]
    have started : (arguments 0 (first :: rest)).isEmpty = false := by simp [arguments]
    unfold run
    rw [started, if_neg (by decide)]
    generalize maximumSizePath ((arguments 0 (first :: rest)).map Prod.fst) = size
    by_cases missing : revFolder = none ∨ pathToFolder = none
    · have absent : revFolder.map (Block.mk size) = none ∨
          pathToFolder.map (Block.mk size) = none := by
        simpa using missing
      obtain ⟨exit, done, wrong⟩ := runArgs_crashes nonempty absent
      refine ⟨exit, ⟨(), []⟩, done, iff_of_true ⟨?_, ?_⟩ (.inl missing)⟩
      · rintro ⟨call, member⟩
        cases member
      · exact fun right => absurd right wrong
    · obtain ⟨rev, rfl⟩ := Option.ne_none_iff_exists'.mp fun none => missing (.inl none)
      obtain ⟨path, rfl⟩ := Option.ne_none_iff_exists'.mp fun none => missing (.inr none)
      obtain ⟨exit, after, done, error, ok⟩ :=
        runArgs_outcome shallow 0 ⟨size, rev⟩ ⟨size, path⟩ ⟨(), []⟩
      refine ⟨exit, after, done, ?_⟩
      by_cases stops : ∃ arg ∈ first :: rest, Stops arg
      · have failed := error stops
        refine iff_of_true ⟨fun _ => failed, fun right => ?_⟩ (.inr (.inl stops))
        rw [failed] at right
        cases right
      · have goes : ∀ arg ∈ first :: rest, ¬Stops arg := by
          intro arg member wrong
          exact stops ⟨arg, member, wrong⟩
        obtain ⟨fine, made, notes, failed, copied⟩ := ok goes
        have recorded : after.notes = made := by simpa using notes
        constructor
        · rintro ⟨told, -⟩
          refine .inr (.inr fun arg member => ?_)
          by_contra wrong
          have returned := told (recorded ▸ failed.mpr ⟨arg, member, wrong⟩)
          rw [fine] at returned
          cases returned
        · rintro (absent | stopped | clean)
          · exact absurd absent missing
          · exact absurd stopped stops
          · have nothing : ¬∃ arg ∈ first :: rest, ¬arg.2.Clean := by
              rintro ⟨arg, member, wrong⟩
              exact wrong (clean arg member)
            refine ⟨fun told => ?_, fun _ => ?_⟩
            · exact absurd (failed.mp (recorded ▸ told)) nothing
            · rw [recorded]
              exact copied nothing

/-- Answers without a failure, for an empty file. -/
def plainAnswers : Answers where
  mkdirFails := false
  openFails := false
  memory _ := some []
  reallocs _ := true
  formats := true
  inputFails := false
  outputFails := false
  stdio := ⟨false, false, fun _ => ⟨false, false, bufferSize⟩⟩
  content := []

/-- The argument `ab`. -/
def argAB : CString := ⟨[97, 98], by decide⟩

/-- The entry `f`. -/
def entryF : CString := ⟨[102], by decide⟩

/-- A directory `ab` with one entry `f` of a type. -/
def oneEntry (type : EntryType) : List (CString × Report) :=
  [(argAB, .mk plainAnswers [(entryF, type, .mk plainAnswers [])])]

/-- For a directory with one regular file the status tells the truth. -/
theorem run_honest_file :
    (∀ arg ∈ oneEntry .reg, arg.2.depth ≤ 2) ∧
      ∃ exit after, run reportSystem 2 (arguments 0 (oneEntry .reg)) (some []) (some []) ⟨(), []⟩ =
        some (exit, after) ∧ Honest (oneEntry .reg) exit after.notes := by
  have shallow : ∀ arg ∈ oneEntry .reg, arg.2.depth ≤ 2 := by
    simp [oneEntry, Report.depth, depthReports]
  have start : plainAnswers.CleanStart := by simp [Answers.CleanStart, plainAnswers]
  have name : plainAnswers.CleanName entryF := ⟨fun _ => ⟨rfl, rfl, rfl⟩, rfl⟩
  have file : plainAnswers.CleanFile := ⟨rfl, rfl, rfl, rfl, fun _ _ => ⟨rfl, rfl⟩⟩
  have clean : ∀ arg ∈ oneEntry .reg, arg.2.Clean := by
    simp [oneEntry, Report.Clean, CleanEntries, Report.answers, start, name, file]
  obtain ⟨exit, after, done, honest⟩ := run_honest_iff (oneEntry .reg) (some []) (some []) 2 shallow
  exact ⟨shallow, exit, after, done, honest.mpr (.inr (.inr clean))⟩

/-- Whether a note is of an error. -/
def Note.isFailed {η : Type} : Note η → Bool
  | .failed _ => true
  | .copied _ | .wrote _ _ | .built _ | .target _ => false

/-- A directory with a symbolic link in it: `fill_folder` returns `ERROR` and `run` returns `OK`. -/
theorem run_hides_error :
    ∃ after, run reportSystem 2 (arguments 0 (oneEntry .other)) (some []) (some []) ⟨(), []⟩ =
        some (.returned .ok, after) ∧ Failed after.notes ∧
      ¬Honest (oneEntry .other) (.returned .ok) after.notes := by
  have computed : (run reportSystem 2 (arguments 0 (oneEntry .other)) (some []) (some [])
      ⟨(), []⟩).map (fun result => (result.1, result.2.notes.any Note.isFailed)) =
        some (.returned .ok, true) := by
    decide +kernel
  obtain ⟨⟨exit, after⟩, done, values⟩ := Option.map_eq_some_iff.mp computed
  obtain ⟨returned, found⟩ := Prod.mk.inj values
  obtain ⟨note, member, wrong⟩ := List.any_eq_true.mp found
  have failed : Failed after.notes := by
    cases note with
    | failed call => exact ⟨call, member⟩
    | copied | wrote | built | target => cases wrong
  have exits : exit = .returned .ok := returned
  rw [exits] at done
  refine ⟨after, done, failed, fun honest => ?_⟩
  exact absurd (honest.error failed) (by decide)

end NsuOs.Mirror
