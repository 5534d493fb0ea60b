import NsuOs.Mirror.Folder

/-!
# The program on a file system that does not fail

The system is a file system, in which every call does what it says, memory is returned full of
zeros and directories are listed completely in any order. What is recorded besides is which files
were opened for writing although they were there. The buffers of `fill_folder` hold the right name
and the right paths as long as the buffer of the name is blank before each entry; clearing it by
the length of the origin path keeps it so.
-/
namespace NsuOs.Mirror

section Buffers

variable {buffers : Buffers} {origin reverse name : CString}

/-- A path with a component behind it. -/
def joined (path component : CString) : CString where
  bytes := path.bytes ++ slash :: component.bytes
  nulFree inside := by
    rcases List.mem_append.mp inside with first | second
    · exact path.nulFree first
    · rcases List.mem_cons.mp second with zero | last
      · exact absurd zero (by decide)
      · exact component.nulFree last

/-- The string with its bytes in reverse order. -/
def reversed (text : CString) : CString where
  bytes := text.bytes.reverse
  nulFree := by simpa using text.nulFree

/-- The sizes at which the name of an entry and the clearing of the buffers stay inside. -/
structure Buffers.Fits (buffers : Buffers) (origin reverse name : CString) : Prop where
  /-- The buffer of the name has the size it was made with. -/
  size : buffers.nameRev.size = maxLenNameFile
  /-- So has the buffer of the target path. -/
  reverseSize : buffers.pathNewRev.size = maxLenNameFile + reverse.strlen
  /-- So has the buffer of the source path. -/
  originSize : buffers.pathNewOrigin.size = maxLenNameFile + origin.strlen
  /-- The source path of the entry is shorter than the buffer of the name. -/
  short : origin.strlen + 1 + name.strlen < maxLenNameFile
  /-- The path of the folder is not empty. -/
  nonempty : 0 < origin.strlen

/-- The buffers are long enough for such a name. -/
theorem Buffers.Fits.correct {σ η : Type} {dirent : Dirent η}
    (fits : buffers.Fits origin reverse name) (sys : System σ η) (named : dirent.name = name) :
    isCorrectLenFolder sys buffers dirent = some buffers := by
  have short := fits.short
  have bound : ¬dirent.name.strlen > maxLenNameFile := by
    rw [named]
    omega
  exact if_neg bound

/-- In a blank buffer the string that `strncpy` leaves is the name of the entry, so `reverse_line`
turns exactly that. -/
theorem Buffers.nameRev_build (blank : buffers.nameRev.Blank)
    (fits : buffers.Fits origin reverse name) :
    reverseText (buffers.nameRev.strncpy name name.strlen) =
      buffers.nameRev.store name.bytes.reverse := by
  have bound : name.strlen < maxLenNameFile := by
    have short := fits.short
    omega
  have small : name.strlen < 2 ^ 32 := by
    have limit : maxLenNameFile < 2 ^ 32 := by decide
    omega
  have ends : Block.Ends (buffers.nameRev.memory.drop name.strlen) :=
    blank.ends (by rw [fits.size]; exact bound)
  have memory := Block.memory_strncpy_self buffers.nameRev name
  have text : (buffers.nameRev.strncpy name name.strlen).text = name := by
    apply CString.ext
    unfold Block.text
    rw [memory]
    exact Block.ofBytes_append name.nulFree ends
  have inside : name.strlen ≤ (name.bytes ++ buffers.nameRev.memory.drop name.strlen).length := by
    simp [CString.strlen]
  unfold reverseText
  rw [text, memory, reverseLine_eq inside small]
  simp [Block.store, Block.strncpy, CString.strlen]

/-- In a blank buffer the name of an entry is reversed exactly. -/
theorem Buffers.text_nameRev (blank : buffers.nameRev.Blank)
    (fits : buffers.Fits origin reverse name) :
    (reverseText (buffers.nameRev.strncpy name name.strlen)).text = reversed name := by
  have bound : name.strlen < buffers.nameRev.size := by
    have short := fits.short
    rw [fits.size]
    omega
  have ends : Block.Ends (buffers.nameRev.memory.drop name.bytes.reverse.length) := by
    rw [List.length_reverse]
    exact blank.ends bound
  apply CString.ext
  rw [nameRev_build blank fits]
  exact Block.ofBytes_append (reversed name).nulFree ends

/-- The path of the copy. -/
theorem Buffers.text_pathNewRev (blank : buffers.nameRev.Blank)
    (fits : buffers.Fits origin reverse name) :
    (buffers.build origin reverse name).pathNewRev.text = joined reverse (reversed name) := by
  apply CString.ext
  unfold Buffers.build
  rw [text_nameRev blank fits]
  exact Block.text_sprintf _ (joined reverse (reversed name)).nulFree

/-- The path of the entry. -/
theorem Buffers.text_pathNewOrigin (buffers : Buffers) (origin reverse name : CString) :
    (buffers.build origin reverse name).pathNewOrigin.text = joined origin name := by
  apply CString.ext
  exact Block.text_sprintf _ (joined origin name).nulFree

/-- The length of a path with a component behind it. -/
theorem strlen_joined (path component : CString) :
    (joined path component).strlen = path.strlen + 1 + component.strlen := by
  simp [joined, CString.strlen]
  omega

/-- The name buffer is blank again after the entry. -/
theorem Buffers.blank_next (blank : buffers.nameRev.Blank)
    (fits : buffers.Fits origin reverse name) :
    (buffers.build origin reverse name).clear.nameRev.Blank := by
  have short := fits.short
  have cleared : (buffers.build origin reverse name).clear.nameRev =
      (buffers.nameRev.store name.bytes.reverse).clear (joined origin name).strlen := by
    unfold Buffers.clear
    rw [text_pathNewOrigin, ← nameRev_build blank fits]
    rfl
  rw [cleared]
  apply Block.blank_clear blank
  · rw [strlen_joined, List.length_reverse]
    unfold CString.strlen
    omega
  · rw [strlen_joined, fits.size]
    omega

/-- The sizes of the buffers stay. -/
theorem Buffers.Fits.next {next : CString} (fits : buffers.Fits origin reverse name)
    (short : origin.strlen + 1 + next.strlen < maxLenNameFile) :
    ((buffers.build origin reverse name).clear).Fits origin reverse next :=
  ⟨fits.size, fits.reverseSize, fits.originSize, short, fits.nonempty⟩

/-- No call failed and no store left its block. -/
def Note.Fine {η : Type} : Note η → Prop
  | .failed _ => False
  | .copied _ => True
  | .wrote size count => count ≤ size
  | .built _ => True
  | .target _ => True

/-- The stores for an entry stay inside. -/
theorem Buffers.buildNotes_fine {η : Type} (blank : buffers.nameRev.Blank)
    (fits : buffers.Fits origin reverse name) :
    ∀ note ∈ buffers.buildNotes (η := η) origin reverse name, note.Fine := by
  have text := text_nameRev blank fits
  have length : (reversed name).strlen = name.strlen := by
    simp [reversed, CString.strlen]
  obtain ⟨size, reverseSize, originSize, short, nonempty⟩ := fits
  unfold maxLenNameFile at size reverseSize originSize short
  intro note member
  simp only [Buffers.buildNotes, text, length, List.mem_cons, List.not_mem_nil, or_false] at member
  rcases member with rfl | rfl | rfl | rfl
  · unfold Note.Fine
    omega
  · unfold Note.Fine
    omega
  · unfold Note.Fine
    omega
  · trivial

/-- The clearing after an entry stays inside. -/
theorem Buffers.clearNotes_fine {η : Type} (fits : buffers.Fits origin reverse name) :
    ∀ note ∈ (buffers.build origin reverse name).clearNotes (η := η), note.Fine := by
  obtain ⟨size, reverseSize, originSize, short, nonempty⟩ := fits
  have text := text_pathNewOrigin buffers origin reverse name
  have length := strlen_joined origin name
  have first : (buffers.build origin reverse name).nameRev.size = buffers.nameRev.size := rfl
  have second : (buffers.build origin reverse name).pathNewRev.size = buffers.pathNewRev.size := rfl
  have third : (buffers.build origin reverse name).pathNewOrigin.size =
      buffers.pathNewOrigin.size := rfl
  intro note member
  unfold Buffers.clearNotes at member
  rw [text, length, first, second, third, size, reverseSize, originSize] at member
  simp only [List.mem_cons, List.not_mem_nil, or_false] at member
  rcases member with rfl | rfl | rfl
  · unfold Note.Fine
    omega
  · unfold Note.Fine
    omega
  · unfold Note.Fine
    omega

end Buffers

/-- The file system, and the locations of files that were there when they were opened for
writing. -/
structure Disk where
  /-- The files. -/
  fs : FileSystem
  /-- The locations of files that were there when they were opened for writing. -/
  overwritten : List Location

/-- The type of an entry in a listing. -/
def entryType (fs : FileSystem) (loc : Location) (text : CString) : EntryType :=
  match Name.parse text.bytes with
  | none => .dir
  | some name =>
    match fs.node (loc ++ [name]) with
    | some .folder => .dir
    | some (.file _) => .reg
    | none => .other

/-- The C library with no failure. -/
def smooth : Stdio := ⟨false, false, fun _ => ⟨false, false, bufferSize⟩⟩

/-- A file is put where a path leads. -/
def Disk.putFile (cwd : Location) (path : CString) (bytes : List UInt8) (disk : Disk) :
    Option Disk := do
  let loc ← disk.fs.resolve cwd path
  let fs ← disk.fs.put loc (.file bytes)
  some ⟨fs, if disk.fs.node loc = none then disk.overwritten else disk.overwritten ++ [loc]⟩

/-- The system of a current folder, an order of listing and some memory behind every block. -/
def diskSystem (cwd : Location) (order : FileSystem → Location → List CString)
    (behind : List UInt8) : System Disk Unit where
  mkdir _ path disk := do
    let loc ← disk.fs.resolve cwd path
    if disk.fs.node loc = none then
      let fs ← disk.fs.put loc .folder
      some { disk with fs := fs }
    else none
  opendir _ path disk := do
    let loc ← disk.fs.resolve cwd path
    if disk.fs.node loc = some .folder then
      some ((order disk.fs loc).map fun text => ⟨text, entryType disk.fs loc text, ()⟩)
    else none
  malloc _ _ size := some (List.replicate size 0 ++ behind)
  realloc _ _ := true
  formats _ := true
  openInput _ path disk :=
    match disk.fs.resolve cwd path with
    | none => false
    | some loc =>
      match disk.fs.node loc with
      | some (.file _) => true
      | some .folder => false
      | none => false
  openOutput _ path disk := disk.putFile cwd path []
  content _ path disk :=
    match disk.fs.resolve cwd path with
    | none => []
    | some loc =>
      match disk.fs.node loc with
      | some (.file bytes) => bytes
      | some .folder => []
      | none => []
  stdio _ := smooth
  close path bytes disk :=
    match disk.putFile cwd path bytes with
    | none => disk
    | some after => { after with overwritten := disk.overwritten }

end NsuOs.Mirror
