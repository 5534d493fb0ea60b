import NsuOs.Mirror.Mirroring
import NsuOs.Mirror.ErrorStatus

/-!
# When a reversed file is whole

The first write of `create_reverse_file` reaches to the end of the output, and what lies before it
is a hole of zeros that the later writes fill from its end. A write that takes fewer bytes than it
is given leaves zeros of the hole behind its bytes, or, if it is the first, a shorter file; the
program does not notice. The output is the reverse of the input exactly when nothing but zeros was
left out. When all calls succeed nothing is, and the writes lie side by side.
-/
namespace NsuOs.Mirror

/-- The bytes that are read in a round. -/
def chunk (content : List UInt8) (round : Nat) : List UInt8 :=
  (content.drop (bufferSize * round)).take bufferSize

/-- The first `fwrite` takes all it is given, and every later one leaves out only zeros. -/
structure Stdio.LosesZeros (io : Stdio) (content : List UInt8) : Prop where
  /-- The first call takes all it is given. -/
  first : toRead content.length ≤ (io.round 0).written
  /-- What a later call does not take is zeros. -/
  later : ∀ round, 0 < round → round < rounds content.length →
    ∀ byte ∈ (chunk content round).reverse.drop (io.round round).written, byte = 0

/-- Every call about a file of a size succeeds: `fseek` does not fail, `fwrite` takes all it is
given and `fread` sets an indicator only when it is asked for bytes behind the end of the file. -/
structure Stdio.Succeeds (io : Stdio) (size : Nat) : Prop where
  /-- `fseek` to the end of the input succeeds. -/
  seekEnd : io.seekEndFails = false
  /-- `fseek` back to its start succeeds. -/
  seekSet : io.seekSetFails = false
  /-- Every `fseek` on the output succeeds. -/
  seek : ∀ round, (io.round round).seekFails = false
  /-- Every `fwrite` takes a full buffer. -/
  written : ∀ round, bufferSize ≤ (io.round round).written
  /-- `fread` sets an indicator only behind the end of the file. -/
  flagged : ∀ round, (io.round round).flagged = true →
    size < bufferSize * round + toRead (size - bufferSize * round)

section Rounds

variable {io : Stdio} {content : List UInt8} {round left : Nat} {output : Output}

/-- A round reads its bytes. -/
theorem piece_eq_chunk (position : left = content.length - bufferSize * round)
    (pending : left ≠ 0) : piece content left = chunk content round := by
  have start : content.length - left = bufferSize * round := by omega
  unfold piece chunk
  rw [start]
  unfold toRead
  split
  · rename_i short
    have rest : (content.drop (bufferSize * round)).length = left := by
      rw [List.length_drop, position]
    rw [List.take_of_length_le (by omega), List.take_of_length_le (by omega)]
  · rfl

/-- A write leaves the bytes behind it as they are. -/
theorem drop_writeAt_behind {bytes data : List UInt8} {offset : Nat}
    (inside : offset + data.length ≤ left) :
    (writeAt bytes offset data).drop left = bytes.drop left := by
  unfold writeAt
  split
  · rfl
  · have front : (bytes.takeD offset 0 ++ data).length = offset + data.length := by
      simp
    rw [List.drop_append, front, List.drop_drop, List.drop_eq_nil_of_le (by omega)]
    have same : offset + data.length + (left - (offset + data.length)) = left := by omega
    rw [same, List.nil_append]

/-- The rounds leave the bytes behind what is left to read as they are. -/
theorem drop_reverseRounds (io : Stdio) (content : List UInt8) (round left : Nat)
    (output : Output) :
    (reverseRounds io content round left output).2.bytes.drop left = output.bytes.drop left := by
  induction left using Nat.strong_induction_on generalizing round output with
  | _ left ih =>
    rw [reverseRounds]
    by_cases done : left = 0
    · rw [if_pos done]
    · have bounds := toRead_bounds done
      have kept : ∀ data : List UInt8, data.length ≤ toRead left →
          (output.write (left - toRead left) data).bytes.drop left = output.bytes.drop left := by
        intro data short
        exact drop_writeAt_behind (by omega)
      have short := kept ((reverseLine (piece content left) (toRead left)).take
        (min (io.round round).written (toRead left))) (by rw [List.length_take]; omega)
      rw [if_neg done]
      split
      · rfl
      · simp only
        split
        · rfl
        · split
          · exact short
          · have shorter : left - toRead left < left := by omega
            have rest := ih (left - toRead left) shorter (round + 1)
              (output.write (left - toRead left) ((reverseLine (piece content left)
                (toRead left)).take (min (io.round round).written (toRead left))))
            have behind := congrArg (List.drop (toRead left)) rest
            rw [List.drop_drop, List.drop_drop, Nat.sub_add_cancel bounds.2.1] at behind
            exact behind.trans short

/-- What a write at the end of a hole leaves of it. -/
theorem writeAt_hole {rest data : List UInt8} {count : Nat} (inside : count ≤ left)
    (fits : data.length ≤ count) :
    writeAt (List.replicate left 0 ++ rest) (left - count) data =
      List.replicate (left - count) 0 ++
        (data ++ List.replicate (count - data.length) 0 ++ rest) := by
  have hole : List.replicate left (0 : UInt8) =
      List.replicate (left - count) 0 ++ List.replicate count 0 := by
    rw [← List.replicate_add, Nat.sub_add_cancel inside]
  unfold writeAt
  split
  · rename_i empty
    rw [hole, empty]
    simp only [List.nil_append, List.length_nil, Nat.sub_zero, List.append_assoc]
  · have front : (List.replicate left 0 ++ rest).takeD (left - count) 0 =
        List.replicate (left - count) 0 := by
      rw [hole, List.append_assoc]
      exact List.takeD_left' (by simp)
    have behind : (List.replicate left 0 ++ rest).drop (left - count + data.length) =
        List.replicate (count - data.length) 0 ++ rest := by
      rw [List.drop_append_of_le_length (by rw [List.length_replicate]; omega),
        List.drop_replicate]
      have size : left - (left - count + data.length) = count - data.length := by omega
      rw [size]
    rw [front, behind]
    simp

/-- The first bytes of some data with zeros for the others are the data exactly when the others are
zeros. -/
theorem take_append_zeros_eq {data : List UInt8} {written : Nat} :
    data.take written ++ List.replicate (data.length - (data.take written).length) 0 = data ↔
      ∀ byte ∈ data.drop written, byte = 0 := by
  have split := List.take_append_drop written data
  have count : data.length - (data.take written).length = (data.drop written).length := by
    rw [List.length_take, List.length_drop]
    omega
  rw [count]
  constructor
  · intro same
    have tails := List.append_cancel_left (same.trans split.symm)
    exact (List.eq_replicate_iff.mp tails.symm).2
  · intro zeros
    have tail := List.eq_replicate_iff.mpr ⟨rfl, zeros⟩
    rw [← tail]
    exact split

/-- The output with a hole of zeros before what is left to read. -/
def Hole (output : Output) (content : List UInt8) (left : Nat) : Prop :=
  output.bytes = List.replicate left 0 ++ (content.take (content.length - left)).reverse

/-- More of the reverse of the content. -/
theorem reverse_take (content : List UInt8) (inside : left ≤ content.length) (pending : left ≠ 0) :
    (content.take (content.length - (left - toRead left))).reverse =
      (piece content left).reverse ++ (content.take (content.length - left)).reverse := by
  have bounds := toRead_bounds pending
  have more : content.length - (left - toRead left) = content.length - left + toRead left := by
    omega
  rw [more, List.take_add, List.reverse_append]
  rfl

/-- A round fills the end of the hole exactly when it leaves out only zeros. -/
theorem hole_write_iff (hole : Hole output content left) (inside : left ≤ content.length)
    (pending : left ≠ 0) (written : Nat) :
    Hole (output.write (left - toRead left) ((piece content left).reverse.take written)) content
        (left - toRead left) ↔
      ∀ byte ∈ (piece content left).reverse.drop written, byte = 0 := by
  have bounds := toRead_bounds pending
  have length := length_piece inside pending
  have fits : ((piece content left).reverse.take written).length ≤ toRead left := by
    rw [List.length_take, List.length_reverse, length]
    omega
  rw [← take_append_zeros_eq, List.length_reverse, length]
  unfold Hole at hole ⊢
  change writeAt output.bytes _ _ = _ ↔ _
  rw [hole, writeAt_hole bounds.2.1 fits, reverse_take content inside pending]
  constructor
  · intro same
    exact List.append_cancel_right (List.append_cancel_left same)
  · intro same
    rw [same]

/-- A round leaves the hole before its bytes. -/
theorem write_front (hole : Hole output content left) (inside : left ≤ content.length)
    (pending : left ≠ 0) (written : Nat) :
    (output.write (left - toRead left) ((piece content left).reverse.take written)).bytes =
      List.replicate (left - toRead left) 0 ++
        (output.write (left - toRead left)
          ((piece content left).reverse.take written)).bytes.drop (left - toRead left) := by
  have bounds := toRead_bounds pending
  have length := length_piece inside pending
  have fits : ((piece content left).reverse.take written).length ≤ toRead left := by
    rw [List.length_take, List.length_reverse, length]
    omega
  unfold Output.write
  simp only
  rw [hole, writeAt_hole bounds.2.1 fits]
  simp

/-- The rounds behind the first write leave the reverse of the content exactly when they leave out
only zeros. -/
theorem reverseRounds_hole (hole : Hole output content left)
    (position : left = content.length - bufferSize * round)
    (passes : ∀ k < rounds left,
      (io.round (round + k)).flagged = false ∧ (io.round (round + k)).seekFails = false) :
    (reverseRounds io content round left output).2.bytes = content.reverse ↔
      ∀ k < rounds left, ∀ byte ∈
        (chunk content (round + k)).reverse.drop (io.round (round + k)).written, byte = 0 := by
  induction left using Nat.strong_induction_on generalizing round output with
  | _ left ih =>
    by_cases done : left = 0
    · have none : rounds left = 0 := by
        rw [done]
        decide
      have whole : output.bytes = content.reverse := by
        simpa [Hole, done] using hole
      rw [reverseRounds, if_pos done, none]
      simp [whole]
    · have bounds := toRead_bounds done
      have inside : left ≤ content.length := by omega
      have filled := hole_write_iff hole inside done (io.round round).written
      have shift : ∀ {k : Nat}, round + (k + 1) = round + 1 + k := by
        intro k
        omega
      rw [rounds_eq done] at passes ⊢
      have here : (io.round round).flagged = false ∧ (io.round round).seekFails = false :=
        passes 0 (Nat.succ_pos _)
      have ahead : ∀ k < rounds (left - toRead left),
          (io.round (round + 1 + k)).flagged = false ∧
            (io.round (round + 1 + k)).seekFails = false := by
        intro k more
        rw [← shift]
        exact passes (k + 1) (Nat.succ_lt_succ more)
      have next : left - toRead left = content.length - bufferSize * (round + 1) := by
        rw [position]
        unfold toRead bufferSize
        split <;> omega
      rw [reverseRounds_passes output inside done here.1 here.2, Nat.forall_lt_succ_left]
      rw [piece_eq_chunk position done] at filled ⊢
      by_cases zeros : ∀ byte ∈ (chunk content round).reverse.drop (io.round round).written,
          byte = 0
      · rw [ih (left - toRead left) (by omega) (filled.mpr zeros) next ahead]
        constructor
        · intro later
          refine ⟨zeros, fun k more => ?_⟩
          rw [shift]
          exact later k more
        · intro all k more
          rw [← shift]
          exact all.2 k more
      · refine iff_of_false ?_ (fun all => zeros all.1)
        -- the bytes of this round are behind all that is written later
        intro reversed
        have stays := drop_reverseRounds io content (round + 1) (left - toRead left)
          (output.write (left - toRead left)
            ((chunk content round).reverse.take (io.round round).written))
        rw [reversed, List.drop_reverse] at stays
        apply zeros
        apply filled.mp
        have front := write_front hole inside done (io.round round).written
        rw [piece_eq_chunk position done] at front
        unfold Hole
        rw [front, ← stays]

/-- What the first write leaves from its offset on. -/
theorem drop_first_write (offset : Nat) (data : List UInt8) :
    ((⟨[], []⟩ : Output).write offset data).bytes.drop offset = data := by
  unfold Output.write writeAt
  simp only
  split
  · rename_i empty
    rw [empty]
    simp
  · simp

/-- A first write that takes all it is given leaves a hole before its bytes. -/
theorem hole_first_write (nonempty : content.length ≠ 0) :
    Hole ((⟨[], []⟩ : Output).write (content.length - toRead content.length)
      (piece content content.length).reverse) content (content.length - toRead content.length) := by
  have bounds := toRead_bounds nonempty
  have length := length_piece (Nat.le_refl content.length) nonempty
  have more := reverse_take content (Nat.le_refl content.length) nonempty
  have some : (piece content content.length).reverse ≠ [] := by
    intro empty
    rw [List.reverse_eq_nil_iff] at empty
    rw [empty, List.length_nil] at length
    omega
  unfold Hole Output.write writeAt
  simp only
  rw [if_neg some, more]
  simp

/-- When no call fails, the output of `create_reverse_file` is the reverse of its input exactly when
only zeros were left out of it, none of them by the first write. -/
theorem reverseContent_bytes_iff (passes : io.Passes content.length) :
    (reverseContent io content).2.bytes = content.reverse ↔ io.LosesZeros content := by
  obtain ⟨seekEnd, seekSet, calls⟩ := passes
  simp only [reverseContent, seekEnd, seekSet, Bool.false_eq_true, if_false]
  by_cases empty : content.length = 0
  · have nothing : content = [] := List.length_eq_zero_iff.mp empty
    have none : rounds content.length = 0 := by
      rw [empty]
      decide
    rw [reverseRounds, if_pos empty]
    refine iff_of_true (by simp [nothing]) ⟨?_, ?_⟩
    · rw [empty]
      exact Nat.zero_le _
    · intro round _ early
      omega
  · have bounds := toRead_bounds empty
    have length := length_piece (Nat.le_refl content.length) empty
    rw [rounds_eq empty] at calls
    have here := calls 0 (Nat.succ_pos _)
    have ahead : ∀ k < rounds (content.length - toRead content.length),
        (io.round (1 + k)).flagged = false ∧ (io.round (1 + k)).seekFails = false := by
      intro k more
      rw [Nat.add_comm]
      exact calls (k + 1) (Nat.succ_lt_succ more)
    have next : content.length - toRead content.length = content.length - bufferSize * (0 + 1) := by
      unfold toRead bufferSize
      split <;> omega
    rw [reverseRounds_passes _ (Nat.le_refl _) empty here.1 here.2]
    by_cases enough : toRead content.length ≤ (io.round 0).written
    · have whole : (piece content content.length).reverse.take (io.round 0).written =
          (piece content content.length).reverse := by
        apply List.take_of_length_le
        rw [List.length_reverse, length]
        exact enough
      rw [whole, reverseRounds_hole (hole_first_write empty) next ahead]
      constructor
      · intro zeros
        refine ⟨enough, fun round positive early => ?_⟩
        rw [rounds_eq empty] at early
        have behind := zeros (round - 1) (by omega)
        have index : 0 + 1 + (round - 1) = round := by omega
        rw [index] at behind
        exact behind
      · intro loses k more
        have early : 0 + 1 + k < rounds content.length := by
          rw [rounds_eq empty]
          omega
        exact loses.later (0 + 1 + k) (by omega) early
    · refine iff_of_false ?_ (fun loses => enough loses.first)
      intro reversed
      have stays := drop_reverseRounds io content (0 + 1) (content.length - toRead content.length)
        ((⟨[], []⟩ : Output).write (content.length - toRead content.length)
          ((piece content content.length).reverse.take (io.round 0).written))
      rw [reversed, drop_first_write] at stays
      have lengths := congrArg List.length stays
      simp only [List.length_drop, List.length_reverse, List.length_take, length] at lengths
      omega

/-- No round is asked for bytes behind the end of the file. -/
theorem Stdio.Succeeds.passes {size : Nat} (succeeds : io.Succeeds size) : io.Passes size := by
  refine ⟨succeeds.seekEnd, succeeds.seekSet, fun round early => ⟨?_, succeeds.seek round⟩⟩
  have before : bufferSize * round < size := by
    unfold rounds bufferSize at early
    unfold bufferSize
    omega
  have pending : size - bufferSize * round ≠ 0 := by omega
  have bounds := toRead_bounds pending
  cases flagged : (io.round round).flagged with
  | false => rfl
  | true =>
    have beyond := succeeds.flagged round flagged
    omega

/-- Nothing is left out. -/
theorem Stdio.Succeeds.losesZeros (succeeds : io.Succeeds content.length) :
    io.LosesZeros content := by
  constructor
  · by_cases empty : content.length = 0
    · rw [empty]
      exact Nat.zero_le _
    · have bounds := toRead_bounds empty
      have enough := succeeds.written 0
      omega
  · intro round _ _ byte member
    have short : (chunk content round).reverse.length ≤ (io.round round).written := by
      have enough := succeeds.written round
      unfold chunk
      rw [List.length_reverse, List.length_take]
      omega
    rw [List.drop_eq_nil_of_le short] at member
    cases member

/-- The number of writes that reach an offset. -/
def reaching (writes : List (Nat × Nat)) (offset : Nat) : Nat :=
  writes.countP fun write => write.1 ≤ offset ∧ offset < write.1 + write.2

/-- The writes of the rounds reach each offset before what is left to read once. -/
theorem reaching_rounds (inside : left ≤ content.length)
    (passes : ∀ k < rounds left,
      (io.round (round + k)).flagged = false ∧ (io.round (round + k)).seekFails = false)
    (written : ∀ round, bufferSize ≤ (io.round round).written) (offset : Nat) :
    reaching (reverseRounds io content round left output).2.writes offset =
      reaching output.writes offset + if offset < left then 1 else 0 := by
  induction left using Nat.strong_induction_on generalizing round output with
  | _ left ih =>
    by_cases done : left = 0
    · rw [reverseRounds, if_pos done, done]
      simp
    · have bounds := toRead_bounds done
      have length := length_piece inside done
      have enough := written round
      have whole : (piece content left).reverse.take (io.round round).written =
          (piece content left).reverse := by
        apply List.take_of_length_le
        rw [List.length_reverse, length]
        omega
      rw [rounds_eq done] at passes
      have here : (io.round round).flagged = false ∧ (io.round round).seekFails = false :=
        passes 0 (Nat.succ_pos _)
      have ahead : ∀ k < rounds (left - toRead left),
          (io.round (round + 1 + k)).flagged = false ∧
            (io.round (round + 1 + k)).seekFails = false := by
        intro k more
        have later := passes (k + 1) (Nat.succ_lt_succ more)
        have shift : round + (k + 1) = round + 1 + k := by omega
        rw [shift] at later
        exact later
      rw [reverseRounds_passes output inside done here.1 here.2, whole,
        ih (left - toRead left) (by omega) (by omega) ahead]
      simp only [reaching, Output.write, List.countP_append, List.countP_singleton,
        List.length_reverse, length, decide_eq_true_eq]
      split <;> split <;> split <;> omega

/-- The writes of a call in which every call of the library succeeds reach each offset of the output
once and none behind it. -/
theorem reaching_reverseContent (succeeds : io.Succeeds content.length) (offset : Nat) :
    reaching (reverseContent io content).2.writes offset =
      if offset < content.length then 1 else 0 := by
  obtain ⟨seekEnd, seekSet, calls⟩ := succeeds.passes
  simp only [reverseContent, seekEnd, seekSet, Bool.false_eq_true, if_false]
  have ahead : ∀ k < rounds content.length,
      (io.round (0 + k)).flagged = false ∧ (io.round (0 + k)).seekFails = false := by
    intro k more
    rw [Nat.zero_add]
    exact calls k more
  rw [reaching_rounds (Nat.le_refl _) ahead succeeds.written]
  exact Nat.zero_add _

end Rounds

section Files

variable {cwd : Location} {io : Stdio} {machine : Machine Disk Unit} {input output : CString}
  {src folder : Location} {name : Name} {content : List UInt8}

/-- Files on a disk, with these answers of the C library. -/
def copySystem (cwd : Location) (io : Stdio) : System Disk Unit :=
  { diskSystem cwd (fun _ _ => []) [] with stdio := fun _ => io }

/-- Both files can be opened: the input is a regular file, and the output, named inside a folder, is
a file or nothing. -/
structure Opens (cwd : Location) (disk : Disk) (input output : CString) (src folder : Location)
    (name : Name) (content : List UInt8) : Prop where
  /-- The input path leads to the input. -/
  source : disk.fs.resolve cwd input = some src
  /-- The input is a file. -/
  file : disk.fs.node src = some (.file content)
  /-- The output path leads to a place inside a folder. -/
  target : disk.fs.resolve cwd output = some (folder ++ [name])
  /-- That folder is there. -/
  inside : disk.fs.node folder = some .folder
  /-- No folder is at the place. -/
  other : disk.fs.node (folder ++ [name]) ≠ some .folder

/-- What is read: opening the output for writing empties it, also if it is the input. -/
def readBack (src target : Location) (content : List UInt8) : List UInt8 :=
  if src = target then [] else content

/-- `create_reverse_file` on two files that can be opened. -/
theorem createReverseFile_opened
    (opens : Opens cwd machine.system input output src folder name content) (io : Stdio) :
    ∃ after, createReverseFile (copySystem cwd io) () input output machine =
        ((reverseContent io (readBack src (folder ++ [name]) content)).1, after) ∧
      ∀ loc, after.system.fs.node loc = if loc = folder ++ [name] then
        some (.file (reverseContent io (readBack src (folder ++ [name]) content)).2.bytes)
        else machine.system.fs.node loc := by
  obtain ⟨source, file, target, inside, other⟩ := opens
  obtain ⟨opened, opening, during, -⟩ := putFile_eq_some target inside other []
  have folders : ∀ loc, machine.system.fs.node loc = some .folder →
      opened.fs.node loc = some .folder :=
    fun _ => FileSystem.folders_of_put during other
  have again : opened.fs.resolve cwd output = some (folder ++ [name]) :=
    FileSystem.resolve_mono folders target
  have reading : opened.fs.resolve cwd input = some src := FileSystem.resolve_mono folders source
  have read : opened.fs.node src = some (.file (readBack src (folder ++ [name]) content)) := by
    rw [during src]
    unfold readBack
    split
    · rfl
    · exact file
  have placed : opened.fs.node (folder ++ [name]) ≠ some .folder := by
    rw [during, if_pos rfl]
    simp
  obtain ⟨closed, closing, nodes, -⟩ := putFile_eq_some again (folders folder inside) placed
    (reverseContent io (readBack src (folder ++ [name]) content)).2.bytes
  have final : ∀ loc, closed.fs.node loc = if loc = folder ++ [name] then
      some (.file (reverseContent io (readBack src (folder ++ [name]) content)).2.bytes)
      else machine.system.fs.node loc := by
    intro loc
    rw [nodes loc]
    split
    · rfl
    · rename_i elsewhere
      rw [during loc, if_neg elsewhere]
  cases status : (reverseContent io (readBack src (folder ++ [name]) content)).1 with
  | ok =>
    refine ⟨⟨⟨closed.fs, opened.overwritten⟩, machine.notes ++ [.copied ()]⟩, ?_, final⟩
    simp only [createReverseFile, copySystem, diskSystem, source, file, if_true, opening, reading,
      read, status, closing, Machine.note]
  | error =>
    refine ⟨⟨⟨closed.fs, opened.overwritten⟩, machine.notes ++ [.failed .createReverseFile]⟩, ?_,
      final⟩
    simp only [createReverseFile, copySystem, diskSystem, source, file, if_true, opening, reading,
      read, status, closing, Machine.note, Machine.fail]

/-- A call in which every call of the library succeeds reverses one file into another. -/
theorem createReverseFile_reverses
    (opens : Opens cwd machine.system input output src folder name content)
    (apart : src ≠ folder ++ [name]) (succeeds : io.Succeeds content.length) :
    ∃ after, createReverseFile (copySystem cwd io) () input output machine = (.ok, after) ∧
      after.system.fs.node (folder ++ [name]) = some (.file content.reverse) := by
  have read : readBack src (folder ++ [name]) content = content := if_neg apart
  have status := (reverseContent_ok_iff io content).mpr succeeds.passes
  have bytes := (reverseContent_bytes_iff succeeds.passes).mpr succeeds.losesZeros
  obtain ⟨after, result, nodes⟩ := createReverseFile_opened opens io
  rw [read, status] at result
  refine ⟨after, result, ?_⟩
  rw [nodes, if_pos rfl, read, bytes]

/-- For every content: `create_reverse_file` from one file to another returns `OK`, leaves exactly
the reverse, and its writes reach each offset of the output once and no other; a further call on the
output, to any other file, restores the content. -/
theorem create_reverse_file_exact
    (opens : Opens cwd machine.system input output src folder name content)
    (apart : src ≠ folder ++ [name]) (succeeds : io.Succeeds content.length) :
    (∀ offset, reaching (reverseContent io content).2.writes offset =
      if offset < content.length then 1 else 0) ∧
    ∃ after, createReverseFile (copySystem cwd io) () input output machine = (.ok, after) ∧
      after.system.fs.node (folder ++ [name]) = some (.file content.reverse) ∧
      ∀ (again : Stdio) (restored : CString) (home : Location) (label : Name),
        Opens cwd after.system output restored (folder ++ [name]) home label content.reverse →
        folder ++ [name] ≠ home ++ [label] → again.Succeeds content.length →
        ∃ last, createReverseFile (copySystem cwd again) () output restored after = (.ok, last) ∧
          last.system.fs.node (home ++ [label]) = some (.file content) := by
  refine ⟨reaching_reverseContent succeeds, ?_⟩
  obtain ⟨after, result, reversed⟩ := createReverseFile_reverses opens apart succeeds
  refine ⟨after, result, reversed, ?_⟩
  intro again restored home label reopens elsewhere succeeds'
  have size : again.Succeeds content.reverse.length := by
    rw [List.length_reverse]
    exact succeeds'
  obtain ⟨last, result', twice⟩ := createReverseFile_reverses reopens elsewhere size
  rw [List.reverse_reverse] at twice
  exact ⟨last, result', twice⟩

/-- A disk with one file in its root. -/
def oneFile (content : List UInt8) : Disk :=
  ⟨bareFs.place [] nameA (.file content) bareFs.root (.inl (by decide)), []⟩

/-- That file can be opened together with another one. -/
theorem opens_oneFile (content : List UInt8) :
    Opens [] (oneFile content) pathA pathD [nameA] [] nameD content where
  source := rfl
  file := by simp [oneFile, FileSystem.place]
  target := rfl
  inside := rfl
  other := by
    have elsewhere : [nameD] ≠ [nameA] := by decide
    simp [oneFile, FileSystem.place, bareFs, elsewhere]

/-- The library without failures succeeds for every size. -/
theorem smooth_succeeds (size : Nat) : smooth.Succeeds size :=
  ⟨rfl, rfl, fun _ => rfl, fun _ => Nat.le_refl _, fun _ flagged => by cases flagged⟩

/-- Three bytes are reversed. -/
theorem create_reverse_file_exact_three :
    ∃ after, createReverseFile (copySystem [] smooth) () pathA pathD ⟨oneFile [1, 2, 3], []⟩ =
        (.ok, after) ∧
      after.system.fs.node [nameD] = some (.file [3, 2, 1]) := by
  have opens : Opens [] (⟨oneFile [1, 2, 3], []⟩ : Machine Disk Unit).system pathA pathD [nameA] []
      nameD [1, 2, 3] := opens_oneFile [1, 2, 3]
  obtain ⟨-, after, result, reversed, -⟩ :=
    create_reverse_file_exact opens (by decide) (smooth_succeeds 3)
  exact ⟨after, result, reversed⟩

/-- `create_reverse_file` reports success only for a complete copy exactly when it fails anyway, or
the two paths name one file and that is empty, or they name two files and only zeros are left out of
the output, none of them by the first write. -/
theorem create_reverse_file_honest_iff
    (opens : Opens cwd machine.system input output src folder name content) (io : Stdio) :
    (∀ after, createReverseFile (copySystem cwd io) () input output machine = (.ok, after) →
      after.system.fs.node (folder ++ [name]) = some (.file content.reverse)) ↔
    ¬io.Passes (readBack src (folder ++ [name]) content).length ∨
      (src = folder ++ [name] ∧ content = []) ∨
      (src ≠ folder ++ [name] ∧ io.LosesZeros content) := by
  obtain ⟨after, result, nodes⟩ := createReverseFile_opened opens io
  have written := nodes (folder ++ [name])
  rw [if_pos rfl] at written
  rw [result]
  by_cases passes : io.Passes (readBack src (folder ++ [name]) content).length
  · have status := (reverseContent_ok_iff io _).mpr passes
    have bytes := reverseContent_bytes_iff passes
    have returned : (∀ last, ((reverseContent io (readBack src (folder ++ [name]) content)).1,
        after) = (.ok, last) → last.system.fs.node (folder ++ [name]) =
          some (.file content.reverse)) ↔
        (reverseContent io (readBack src (folder ++ [name]) content)).2.bytes =
          content.reverse := by
      rw [status]
      constructor
      · intro honest
        have node := honest after rfl
        rw [written] at node
        simpa using node
      · rintro same last equal
        obtain rfl := (Prod.mk.inj equal).2
        rw [written, same]
    rw [returned]
    by_cases same : src = folder ++ [name]
    · have read : readBack src (folder ++ [name]) content = [] := if_pos same
      have empty : (reverseContent io []).2.bytes = [] := by
        rw [read] at bytes
        exact bytes.mpr ⟨Nat.zero_le _, fun round _ early => absurd early (Nat.not_lt_zero round)⟩
      rw [read] at passes ⊢
      have calls : io.Passes 0 := passes
      rw [empty, eq_comm, List.reverse_eq_nil_iff]
      simp [calls, same]
    · have read : readBack src (folder ++ [name]) content = content := if_neg same
      rw [read] at passes bytes ⊢
      rw [bytes]
      simp [passes, same]
  · have status : (reverseContent io (readBack src (folder ++ [name]) content)).1 = .error := by
      cases status : (reverseContent io (readBack src (folder ++ [name]) content)).1 with
      | ok => exact absurd ((reverseContent_ok_iff io _).mp status) passes
      | error => rfl
    refine iff_of_true ?_ (.inl passes)
    intro last equal
    rw [status] at equal
    cases (Prod.mk.inj equal).1

/-- The library when the first write takes one byte. -/
def oneByte : Stdio := ⟨false, false, fun _ => ⟨false, false, 1⟩⟩

/-- No call of it fails. -/
theorem oneByte_passes (size : Nat) : oneByte.Passes size :=
  ⟨rfl, rfl, fun _ _ => ⟨rfl, rfl⟩⟩

/-- A file of one byte is copied even so. -/
theorem create_reverse_file_honest_one :
    ∃ after, createReverseFile (copySystem [] oneByte) () pathA pathD ⟨oneFile [1], []⟩ =
        (.ok, after) ∧
      after.system.fs.node [nameD] = some (.file [1]) := by
  have opens : Opens [] (⟨oneFile [1], []⟩ : Machine Disk Unit).system pathA pathD [nameA] [] nameD
      [1] := opens_oneFile [1]
  have loses : oneByte.LosesZeros [1] := by
    refine ⟨by decide, fun round positive early => ?_⟩
    have one : rounds 1 = 1 := by decide
    change round < rounds 1 at early
    omega
  have honest := (create_reverse_file_honest_iff opens oneByte).mpr (.inr (.inr ⟨by decide, loses⟩))
  obtain ⟨after, result, -⟩ := createReverseFile_opened opens oneByte
  have status := (reverseContent_ok_iff oneByte (readBack [nameA] [nameD] [1])).mpr
    (oneByte_passes _)
  rw [List.nil_append, status] at result
  exact ⟨after, result, honest after result⟩

/-- Of two bytes one is lost and `OK` is returned. -/
theorem create_reverse_file_drops :
    ¬∀ after, createReverseFile (copySystem [] oneByte) () pathA pathD ⟨oneFile [1, 2], []⟩ =
        (.ok, after) →
      after.system.fs.node [nameD] = some (.file [2, 1]) := by
  have opens : Opens [] (⟨oneFile [1, 2], []⟩ : Machine Disk Unit).system pathA pathD [nameA] []
      nameD [1, 2] := opens_oneFile [1, 2]
  have read : readBack [nameA] [nameD] [1, 2] = [1, 2] := by decide
  obtain ⟨after, result, nodes⟩ := createReverseFile_opened opens oneByte
  rw [List.nil_append, read] at result nodes
  rw [(reverseContent_ok_iff oneByte [1, 2]).mpr (oneByte_passes _)] at result
  have written := nodes [nameD]
  rw [if_pos rfl] at written
  intro honest
  have bytes : (reverseContent oneByte [1, 2]).2.bytes = [2, 1] := by
    have node := honest after result
    rw [written] at node
    simpa using node
  have loses := (reverseContent_bytes_iff (oneByte_passes _)).mp bytes
  exact absurd loses.first (by decide)

end Files

end NsuOs.Mirror
