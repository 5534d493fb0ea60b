import NsuOs.Mirror.EntryNames
import NsuOs.Mirror.ErrorStatus

/-!
# When `fill_folder` stays inside its buffers

A name of up to 255 bytes never makes `is_correct_len_folder` change a buffer, so the sizes are
those from the start: 256 bytes for the name and 256 more than each of the two given paths for the
new ones. The string in the name buffer ends at the first terminator behind the name and has to
leave room for the slash and a terminator. The clearing writes as many bytes as the origin path of
the entry has into all three buffers, the smallest of which is the one of the name. Both conditions
depend on lengths and on the memory from `malloc` alone, so they can be said of a report with no
call being made.
-/
namespace NsuOs.Mirror

open NsuOs.Block

/-- A recorded store stays inside its block. -/
def Note.Inside {η : Type} : Note η → Prop
  | .wrote size count => count ≤ size
  | .failed _ | .copied _ | .built _ | .target _ => True

/-- All recorded stores stay inside their blocks. -/
def StoresInside {η : Type} (notes : List (Note η)) : Prop := ∀ note ∈ notes, note.Inside

/-- What is recorded from one machine to another stays inside exactly when it is expected to. -/
def Stores (before after : Machine Unit Entry) (expected : Prop) : Prop :=
  ∃ made, after.notes = before.notes ++ made ∧ (StoresInside made ↔ expected)

/-- The loop goes on after an entry: it is a directory that could be made, or a file that was
copied. -/
def Answers.GoesOn (answers : Answers) (name : CString) (type : EntryType) : Prop :=
  match type with
  | .dir => isCurrOrPrevDir name = true ∨ answers.mkdirFails = false
  | .reg => answers.CleanFile
  | .other => False

/-- Behind the name, and early enough for the slash and a terminator, the name buffer has a
terminator: in its memory, or where it was cleared. -/
def RoomFor (memory : List UInt8) (cleared : Nat) (name : CString) : Prop :=
  ∃ offset, name.strlen ≤ offset ∧ offset + 2 ≤ maxLenNameFile ∧
    (offset < cleared ∨ ZeroAt memory offset)

mutual

/-- There is room for all that is stored when the directory of a report is filled, with an origin
path of a length. -/
def Report.Roomy (origin : Nat) : Report → Prop
  | .mk answers entries =>
    answers.CleanStart → RoomyEntries origin ((answers.memory 0).getD []) 0 entries

/-- There is room for the entries of a directory, with the memory of the name buffer and the number
of bytes at its start that were cleared. -/
def RoomyEntries (origin : Nat) (memory : List UInt8) :
    Nat → List (CString × EntryType × Report) → Prop
  | _, [] => True
  | cleared, (name, type, report) :: rest =>
    RoomFor memory cleared name ∧
      (report.answers.formats = true →
        (type = .dir → isCurrOrPrevDir name = false → report.answers.mkdirFails = false →
          report.Roomy (origin + 1 + name.strlen)) ∧
        (report.answers.GoesOn name type →
          origin + 1 + name.strlen ≤ maxLenNameFile ∧
            RoomyEntries origin memory (max cleared (origin + 1 + name.strlen)) rest))

end

mutual

/-- Every name in the tree of a report has 1 to 255 bytes. -/
def Report.Named : Report → Prop
  | .mk _ entries => NamedEntries entries

/-- So does every name of the entries and below them. -/
def NamedEntries : List (CString × EntryType × Report) → Prop
  | [] => True
  | (name, _, report) :: rest =>
    (1 ≤ name.strlen ∧ name.strlen ≤ 255) ∧ report.Named ∧ NamedEntries rest

end

variable {before middle after : Machine Unit Entry} {expected more other : Prop}
  {call : FolderCall Unit Entry} {name : CString} {type : EntryType} {report : Report}
  {place : List Nat}

/-- Stores of a list of notes are those of its parts. -/
theorem storesInside_append {η : Type} (first second : List (Note η)) :
    StoresInside (first ++ second) ↔ StoresInside first ∧ StoresInside second :=
  List.forall_mem_append

/-- One step after the other. -/
theorem Stores.trans (first : Stores before middle expected) (second : Stores middle after more) :
    Stores before after (expected ∧ more) := by
  obtain ⟨made, notes, inside⟩ := first
  obtain ⟨further, later, within⟩ := second
  refine ⟨made ++ further, ?_, ?_⟩
  · rw [later, notes, List.append_assoc]
  · rw [storesInside_append, inside, within]

/-- The same in other words. -/
theorem Stores.congr (stores : Stores before after expected) (same : expected ↔ other) :
    Stores before after other := by
  obtain ⟨made, notes, inside⟩ := stores
  exact ⟨made, notes, inside.trans same⟩

/-- Notes are recorded. -/
theorem stores_note (machine : Machine Unit Entry) (notes : List (Note Entry)) :
    Stores machine (machine.note notes) (StoresInside notes) := ⟨notes, rfl, Iff.rfl⟩

/-- An error stores nothing. -/
theorem stores_fail (machine : Machine Unit Entry) (call : Call) :
    Stores machine (machine.fail call).2 True :=
  ⟨[.failed call], rfl, by simp [StoresInside, Note.Inside]⟩

/-- Nothing is recorded. -/
theorem stores_refl (machine : Machine Unit Entry) : Stores machine machine True :=
  ⟨[], (List.append_nil _).symm, by simp [StoresInside]⟩

/-- `create_reverse_file` stores nothing in the buffers. -/
theorem createReverseFile_stores (entry : Entry) (inputPath outputPath : CString)
    (machine : Machine Unit Entry) :
    Stores machine (createReverseFile reportSystem entry inputPath outputPath machine).2 True := by
  unfold createReverseFile
  split
  · split
    · exact stores_fail machine _
    · simp only
      split
      · exact stores_fail machine _
      · exact ⟨[.copied entry], rfl, by simp [StoresInside, Note.Inside]⟩
  · exact stores_fail machine _

/-- How long the string in the name buffer may be is how early it ends. -/
theorem strlen_turned_le_iff (block : Block) (name : CString) (bound : Nat) :
    (reverseText (block.strncpy name name.strlen)).text.strlen ≤ bound ↔
      ∃ offset, name.strlen ≤ offset ∧ offset ≤ bound ∧ ZeroAt block.memory offset := by
  rw [strlen_turned]
  unfold leftover
  constructor
  · intro short
    have behind : (CString.ofBytes (block.memory.drop name.strlen)).strlen ≤
        bound - name.strlen := by
      omega
    obtain ⟨offset, early, zero⟩ := (strlen_ofBytes_le_iff _ _).mp behind
    rw [zeroAt_drop] at zero
    exact ⟨name.strlen + offset, by omega, by omega, zero⟩
  · rintro ⟨offset, behind, early, zero⟩
    have same : name.strlen + (offset - name.strlen) = offset := by omega
    have found : ∃ k ≤ bound - name.strlen, ZeroAt (block.memory.drop name.strlen) k := by
      refine ⟨offset - name.strlen, by omega, ?_⟩
      rw [zeroAt_drop, same]
      exact zero
    have short := (strlen_ofBytes_le_iff _ _).mpr found
    omega

/-- The buffers have the sizes from the start, and terminators in the name buffer where its memory
had them and where it was cleared. -/
structure Prepared (memory : List UInt8) (cleared : Nat) (origin reverse : CString)
    (buffers : Buffers) : Prop where
  /-- The buffers have the sizes they were made with. -/
  sizes : buffers.sizes =
    ⟨maxLenNameFile, maxLenNameFile + reverse.strlen, maxLenNameFile + origin.strlen⟩
  /-- Terminators in the buffer of the name are old ones or where it was cleared. -/
  marks : ∀ offset, ZeroAt buffers.nameRev.memory offset ↔ offset < cleared ∨ ZeroAt memory offset

variable {memory : List UInt8} {cleared : Nat} {origin reverse : CString} {buffers : Buffers}

/-- They have so after an entry, with the clearing as long as its origin path. -/
theorem Prepared.next (prepared : Prepared memory cleared origin reverse buffers) (name : CString) :
    Prepared memory (max cleared (origin.strlen + 1 + name.strlen)) origin reverse
      (buffers.build origin reverse name).clear := by
  refine ⟨prepared.sizes, ?_⟩
  intro offset
  rw [zeroAt_next, prepared.marks, lt_max_iff]
  constructor
  · rintro ((early | zero) | within)
    · exact .inl (.inl early)
    · exact .inr zero
    · exact .inl (.inr (by omega))
  · rintro ((early | within) | zero)
    · exact .inl (.inl early)
    · exact .inr (by omega)
    · exact .inl (.inr zero)

/-- The stores of `strncpy` and `sprintf` stay inside exactly when there is room for the name. -/
theorem Prepared.build_iff (prepared : Prepared memory cleared origin reverse buffers)
    (short : name.strlen ≤ 255) :
    StoresInside (buffers.buildNotes (η := Entry) origin reverse name) ↔
      RoomFor memory cleared name := by
  obtain ⟨nameSize, revSize, originSize⟩ := Sizes.mk.inj prepared.sizes
  have ends := strlen_turned_le_iff buffers.nameRev name 254
  have longer := strlen_turned buffers.nameRev name
  simp only [prepared.marks] at ends
  simp only [StoresInside, Buffers.buildNotes, List.forall_mem_cons, Note.Inside, List.not_mem_nil,
    false_imp_iff, implies_true, and_true, nameSize, revSize, originSize]
  unfold RoomFor maxLenNameFile
  constructor
  · rintro ⟨-, fits, -⟩
    obtain ⟨offset, behind, early, zero⟩ := ends.mp (by omega)
    exact ⟨offset, behind, by omega, zero⟩
  · rintro ⟨offset, behind, early, zero⟩
    have fits := ends.mpr ⟨offset, behind, by omega, zero⟩
    exact ⟨by omega, by omega, by omega⟩

/-- The stores of `memset` stay inside exactly when the origin path of the entry is not longer than
the name buffer. -/
theorem Prepared.clear_iff (prepared : Prepared memory cleared origin reverse buffers)
    (name : CString) :
    StoresInside ((buffers.build origin reverse name).clearNotes (η := Entry)) ↔
      origin.strlen + 1 + name.strlen ≤ maxLenNameFile := by
  rw [clearNotes_eq, prepared.sizes]
  simp only [StoresInside, Sizes.clearNotes, List.forall_mem_cons, Note.Inside, List.not_mem_nil,
    false_imp_iff, implies_true, and_true, strlen_joined]
  omega

/-- A call is settled for a report when it fails exactly if the directory cannot be made, and
otherwise stores inside exactly if there is room. -/
def Bounded (call : FolderCall Unit Entry) (report : Report) : Prop :=
  ∀ place origin reverse machine, ∃ status after,
    call (place, report) origin reverse machine = some (status, after) ∧
      (status = .ok ↔ report.answers.mkdirFails = false) ∧
      Stores machine after (report.answers.mkdirFails = false → report.Roomy origin.strlen)

/-- The copy of an entry stores inside exactly if there is room below it, and the loop stops after
it exactly if it does not go on. -/
theorem copyEntry_stores (name : CString) (type : EntryType) (bounded : Bounded call report)
    (place : List Nat) (buffers : Buffers) (machine : Machine Unit Entry) :
    ∃ status after, copyEntry reportSystem call ⟨name, type, (place, report)⟩ .ok buffers machine =
        some (status, after) ∧
      (status = .error ∨ ¬(type = .dir ∨ type = .reg) ↔ ¬report.answers.GoesOn name type) ∧
      Stores machine after (type = .dir → isCurrOrPrevDir name = false →
        report.answers.mkdirFails = false → report.Roomy buffers.pathNewOrigin.text.strlen) := by
  unfold copyEntry
  cases type with
  | dir =>
    by_cases special : isCurrOrPrevDir name = true
    · refine ⟨.ok, machine, by simp [special], by simp [Answers.GoesOn, special], ?_⟩
      exact (stores_refl machine).congr (by simp [special])
    · obtain ⟨status, after, called, returned, stores⟩ :=
        bounded place buffers.pathNewOrigin.text buffers.pathNewRev.text machine
      refine ⟨status, after, by simpa [special] using called, ?_, stores.congr (by simp [special])⟩
      cases status <;> simpa [Answers.GoesOn, special] using returned
  | reg =>
    obtain ⟨status, after, called, returned, -⟩ := createReverseFile_outcome (place, report)
      buffers.pathNewOrigin.text buffers.pathNewRev.text machine
    have stores := createReverseFile_stores (place, report) buffers.pathNewOrigin.text
      buffers.pathNewRev.text machine
    rw [called] at stores
    refine ⟨status, after, by simp [called], ?_, stores.congr (by simp)⟩
    simpa [Answers.GoesOn] using returned
  | other =>
    refine ⟨.ok, machine, by simp, by simp [Answers.GoesOn], (stores_refl machine).congr ?_⟩
    simp

/-- A name of up to 255 bytes changes no buffer. -/
theorem isCorrectLenFolder_short (short : name.strlen ≤ 255) (buffers : Buffers) :
    isCorrectLenFolder reportSystem buffers ⟨name, type, (place, report)⟩ = some buffers := by
  have fits : ¬name.strlen > maxLenNameFile := by
    unfold maxLenNameFile
    omega
  exact if_neg fits

/-- A step of the loop stores inside exactly if there is room for the entry, and room for the
entries behind it matters if the loop goes on. -/
def Onward.Stores (machine : Machine Unit Entry) (memory : List UInt8) (origin reverse : CString)
    (roomy : Nat → List (CString × EntryType × Report) → Prop)
    (rest : List (CString × EntryType × Report)) (expected : Prop) : Onward Unit Entry → Prop
  | .stop after => Mirror.Stores machine after expected
  | .next buffers after => ∃ first cleared, Mirror.Stores machine after first ∧
      Prepared memory cleared origin reverse buffers ∧ (expected ↔ first ∧ roomy cleared rest)

/-- What a step of the loop of `fill_folder` stores. -/
theorem EntryStep.stores (bounded : Bounded call report)
    (prepared : Prepared memory cleared origin reverse buffers) (short : name.strlen ≤ 255)
    {machine : Machine Unit Entry} {onward : Onward Unit Entry}
    (step : EntryStep reportSystem call origin reverse ⟨name, type, (place, report)⟩ .ok buffers
      machine onward) (rest : List (CString × EntryType × Report)) :
    onward.Stores machine memory origin reverse (RoomyEntries origin.strlen memory) rest
      (RoomyEntries origin.strlen memory cleared ((name, type, report) :: rest)) := by
  have built := (stores_note machine (buffers.buildNotes origin reverse name)).congr
    (prepared.build_iff short)
  have kept : isCorrectLenFolder reportSystem buffers ⟨name, type, (place, report)⟩ =
      some buffers := isCorrectLenFolder_short short buffers
  obtain ⟨status', after, copied, stops, stores⟩ := copyEntry_stores name type bounded place
    (buffers.build origin reverse name) (machine.note (buffers.buildNotes origin reverse name))
  rw [Buffers.text_pathNewOrigin, strlen_joined] at stores
  rw [RoomyEntries]
  cases step with
  | refused long =>
    rw [kept] at long
    cases long
  | unbuilt changed fits fails =>
    obtain rfl := Option.some.inj (kept.symm.trans fits)
    have refused : report.answers.formats = false := fails
    exact (built.trans (stores_fail _ .fillFolder)).congr (by simp [refused])
  | uncopied changed status middle fits formats copy wrong =>
    obtain rfl := Option.some.inj (kept.symm.trans fits)
    obtain ⟨rfl, rfl⟩ := Prod.mk.inj (Option.some.inj (copied.symm.trans copy))
    have accepted : report.answers.formats = true := formats
    have ended : ¬report.answers.GoesOn name type :=
      stops.mp (wrong.imp_right fun other known => (type_known type).mp known other)
    refine ((built.trans stores).trans (stores_fail _ .fillFolder)).congr ?_
    simp [accepted, ended]
  | copied changed middle fits formats copy known =>
    obtain rfl := Option.some.inj (kept.symm.trans fits)
    obtain ⟨rfl, rfl⟩ := Prod.mk.inj (Option.some.inj (copied.symm.trans copy))
    have accepted : report.answers.formats = true := formats
    have onward : report.answers.GoesOn name type := by
      by_contra ended
      rcases stops.mpr ended with failed | other
      · cases failed
      · exact other ((type_known type).mpr known)
    have wiped := (stores_note after (buffers.build origin reverse name).clearNotes).congr
      (prepared.clear_iff name)
    refine ⟨_, _, (built.trans stores).trans wiped, prepared.next name, ?_⟩
    simp [accepted, onward, and_assoc]

/-- The loop of `fill_folder` stores inside exactly if there is room for its entries. -/
theorem fillEntries_stores {entries : List (CString × EntryType × Report)}
    (bounded : ∀ name type report, (name, type, report) ∈ entries → Bounded call report)
    (named : NamedEntries entries) (prepared : Prepared memory cleared origin reverse buffers)
    (place : List Nat) (i : Nat) (machine : Machine Unit Entry) :
    ∃ status after, fillEntries reportSystem call origin reverse (children place i entries) .ok
        buffers machine = some (status, after) ∧
      Stores machine after (RoomyEntries origin.strlen memory cleared entries) := by
  induction entries generalizing i cleared buffers machine with
  | nil =>
    refine ⟨.ok, machine, rfl, (stores_refl machine).congr ?_⟩
    simp [RoomyEntries]
  | cons entry rest ih =>
    obtain ⟨name, type, report⟩ := entry
    obtain ⟨⟨-, short⟩, -, others⟩ := named
    have bound := bounded name type report List.mem_cons_self
    obtain ⟨onward, step⟩ : ∃ onward, EntryStep reportSystem call origin reverse
        ⟨name, type, (place ++ [i], report)⟩ .ok buffers machine onward := by
      apply exists_entryStep
      intro changed _ _
      obtain ⟨status, after, copied, -⟩ := copyEntry_stores name type bound (place ++ [i])
        (changed.build origin reverse name) (machine.note (changed.buildNotes origin reverse name))
      exact ⟨_, copied⟩
    have stores := step.stores bound prepared short rest
    rw [children, step.fillEntries]
    cases onward with
    | stop after => exact ⟨.error, after, rfl, stores⟩
    | next changed middle =>
      obtain ⟨first, cleared', stored, prepared', roomy⟩ := stores
      obtain ⟨result, after, done, later⟩ := ih
        (fun name type report later => bounded name type report (List.mem_cons_of_mem _ later))
        others prepared' (i + 1) middle
      exact ⟨result, after, done, (stored.trans later).congr roomy.symm⟩

/-- `fill_folder` stores inside exactly if there is room for what is in its directory. -/
theorem fillFolder_stores
    (bounded : ∀ name type below, (name, type, below) ∈ report.entries → Bounded call below)
    (named : report.Named) (place : List Nat) (origin reverse : CString)
    (machine : Machine Unit Entry) :
    ∃ status after, fillFolder reportSystem call (place, report) origin reverse machine =
        some (status, after) ∧ Stores machine after (report.Roomy origin.strlen) := by
  obtain ⟨answers, entries⟩ := report
  by_cases start : answers.CleanStart
  · obtain ⟨nameRev, pathNewRev, pathNewOrigin, got, started⟩ :=
      fillFolder_started call (.mk answers entries) start place origin reverse machine
    have memory : answers.memory 0 = some nameRev := got
    have prepared : Prepared nameRev 0 origin reverse
        ⟨⟨maxLenNameFile, nameRev⟩, ⟨maxLenNameFile + reverse.strlen, pathNewRev⟩,
          ⟨maxLenNameFile + origin.strlen, pathNewOrigin⟩⟩ := ⟨rfl, by simp⟩
    obtain ⟨status, after, done, stores⟩ :=
      fillEntries_stores bounded named prepared place 0 machine
    refine ⟨status, after, started.trans done, stores.congr ?_⟩
    simp [Report.Roomy, Report.entries, start, memory]
  · have refused := fillFolder_refused call (.mk answers entries) start place origin reverse
      machine
    refine ⟨.error, _, refused, (stores_fail machine _).congr ?_⟩
    simp [Report.Roomy, start]

/-- The names of an entry and below it are among those of its directory. -/
theorem named_of_mem {entries : List (CString × EntryType × Report)} (named : NamedEntries entries)
    (member : (name, type, report) ∈ entries) : report.Named := by
  induction entries with
  | nil => cases member
  | cons entry rest ih =>
    obtain ⟨other, kind, first⟩ := entry
    obtain ⟨-, here, others⟩ := named
    rcases List.mem_cons.mp member with same | later
    · obtain ⟨rfl, rfl, rfl⟩ : name = other ∧ type = kind ∧ report = first := by simpa using same
      exact here
    · exact ih others later

/-- So are those of a report. -/
theorem named_below {below : Report} (named : report.Named)
    (member : (name, type, below) ∈ report.entries) : below.Named := by
  obtain ⟨answers, entries⟩ := report
  exact named_of_mem named member

/-- `create_reverse_folder` stores inside exactly if its directory cannot be made or there is room
for what is in it. -/
theorem createReverseFolder_bounded {limit : Nat} {report : Report}
    (shallow : report.depth ≤ limit) (named : report.Named) :
    Bounded (createReverseFolder reportSystem limit) report := by
  induction limit generalizing report with
  | zero =>
    obtain ⟨answers, entries⟩ := report
    unfold Report.depth at shallow
    omega
  | succ limit ih =>
    intro place origin reverse machine
    rw [createReverseFolder_succ]
    cases made : report.answers.mkdirFails with
    | true => exact ⟨.error, _, rfl, by simp, (stores_fail machine _).congr (by simp)⟩
    | false =>
      have bounded : ∀ name type below, (name, type, below) ∈ report.entries →
          Bounded (createReverseFolder reportSystem limit) below :=
        fun name type below member => ih (depth_below shallow member) (named_below named member)
      obtain ⟨status, after, done, stores⟩ := fillFolder_stores bounded named place origin reverse
        (machine.note [.copied (place, report)])
      have copied : Stores machine (machine.note [.copied (place, report)]) True :=
        (stores_note machine _).congr (by simp [StoresInside, Note.Inside])
      rw [if_neg (by simp), done]
      exact ⟨.ok, after, rfl, by simp, (copied.trans stores).congr (by simp)⟩

/-- For every tree with names of 1 to 255 bytes, every memory, every pattern of failures and every
two paths, `fill_folder` ends, and every store, at every depth, stays inside its buffer exactly if
there is room for every entry that is reached. -/
theorem fill_folder_inside_iff (report : Report) (named : report.Named) (limit : Nat)
    (shallow : report.depth ≤ limit) (place : List Nat) (origin reverse : CString) :
    ∃ status after, fillFolder reportSystem (createReverseFolder reportSystem limit)
        (place, report) origin reverse ⟨(), []⟩ = some (status, after) ∧
      (StoresInside after.notes ↔ report.Roomy origin.strlen) := by
  have bounded : ∀ name type below, (name, type, below) ∈ report.entries →
      Bounded (createReverseFolder reportSystem limit) below := by
    intro name type below member
    have below_limit := depth_below (Nat.le_succ_of_le shallow) member
    exact createReverseFolder_bounded below_limit (named_below named member)
  obtain ⟨status, after, done, made, notes, inside⟩ :=
    fillFolder_stores bounded named place origin reverse ⟨(), []⟩
  have recorded : after.notes = made := by simpa using notes
  refine ⟨status, after, done, ?_⟩
  rw [recorded]
  exact inside

/-- A directory with one regular file of a name, in memory full of zeros. -/
def fileNamed (name : CString) : Report :=
  .mk plainAnswers [(name, .reg, .mk plainAnswers [])]

/-- There is room for a file `f` in the current directory. -/
theorem fill_folder_inside_file :
    (fileNamed entryF).Named ∧ (fileNamed entryF).depth ≤ 2 ∧
      ∃ status after, fillFolder reportSystem (createReverseFolder reportSystem 2)
          ([], fileNamed entryF) (CString.ofBytes dot) (CString.ofBytes dot) ⟨(), []⟩ =
        some (status, after) ∧ StoresInside after.notes := by
  have named : (fileNamed entryF).Named := by
    simp [fileNamed, Report.Named, NamedEntries, entryF, CString.strlen]
  have shallow : (fileNamed entryF).depth ≤ 2 := by
    simp [fileNamed, Report.depth, depthReports]
  have roomy : (fileNamed entryF).Roomy (CString.ofBytes dot).strlen := by
    intro start
    have terminator : RoomFor [] 0 entryF := ⟨1, by decide, by decide, .inr rfl⟩
    refine ⟨terminator, fun formats => ⟨by simp, fun onward => ⟨by decide, trivial⟩⟩⟩
  obtain ⟨status, after, done, inside⟩ := fill_folder_inside_iff (fileNamed entryF) named 2 shallow
    [] (CString.ofBytes dot) (CString.ofBytes dot)
  exact ⟨named, shallow, status, after, done, inside.mpr roomy⟩

/-- A name of 255 bytes. -/
def longestName : CString :=
  ⟨List.replicate 255 97, fun member => absurd (List.eq_of_mem_replicate member) (by decide)⟩

/-- For a file with a name of 255 bytes both `sprintf` calls write one byte too many, even in memory
full of zeros. -/
theorem longest_name_overrun :
    (fileNamed longestName).Named ∧
      ∃ status after, fillFolder reportSystem (createReverseFolder reportSystem 2)
          ([], fileNamed longestName) (CString.ofBytes dot) (CString.ofBytes dot) ⟨(), []⟩ =
        some (status, after) ∧ ¬StoresInside after.notes := by
  have length : longestName.strlen = 255 := List.length_replicate
  have named : (fileNamed longestName).Named := by
    simp [fileNamed, Report.Named, NamedEntries, length]
  have cramped : ¬(fileNamed longestName).Roomy (CString.ofBytes dot).strlen := by
    intro roomy
    have start : plainAnswers.CleanStart := by simp [Answers.CleanStart, plainAnswers]
    obtain ⟨⟨offset, behind, early, -⟩, -⟩ := roomy start
    rw [length] at behind
    unfold maxLenNameFile at early
    omega
  have bounded : ∀ name type below, (name, type, below) ∈ (fileNamed longestName).entries →
      Bounded (createReverseFolder reportSystem 2) below := by
    intro name type below member
    obtain ⟨-, -, rfl⟩ : name = longestName ∧ type = .reg ∧ below = .mk plainAnswers [] := by
      simpa [fileNamed, Report.entries] using member
    exact createReverseFolder_bounded (by simp [Report.depth, depthReports]) trivial
  obtain ⟨status, after, done, made, notes, inside⟩ := fillFolder_stores bounded named []
    (CString.ofBytes dot) (CString.ofBytes dot) ⟨(), []⟩
  refine ⟨named, status, after, done, ?_⟩
  have recorded : after.notes = made := by simpa using notes
  rw [recorded, inside]
  exact cramped

end NsuOs.Mirror
