import NsuOs.Base.LinkedNames
import NsuOs.Commands.SetCommands

/-!
# The commands on folders, links and permissions

The rest of `set_commands.c`. Most of these commands make one call of the library, report its
failure and do nothing else, so they are one definition applied to their own call. The bits of
`st_mode` other than the type are kept beside the files, by the number of the inode; a new inode
gets them from the call that makes it, less those of the process's mask.
-/
namespace NsuOs.Commands

/-- What the C library answers, for the other commands too. -/
structure Calls extends Library where
  /-- `mkdir` fails. -/
  mkdirFails : Bool
  /-- `rmdir` fails. -/
  rmdirFails : Bool
  /-- `opendir` fails. -/
  opendirFails : Bool
  /-- `closedir` fails. -/
  closedirFails : Bool
  /-- `fclose` fails. -/
  fcloseFails : Bool
  /-- `symlink` fails. -/
  symlinkFails : Bool
  /-- `link` fails. -/
  linkFails : Bool
  /-- `unlink` fails. -/
  unlinkFails : Bool
  /-- `chmod` fails. -/
  chmodFails : Bool
  /-- The order in which `readdir` gives the names. -/
  order : List (List UInt8) → List (List UInt8)
  /-- The mask of the process. -/
  umask : BitVec 32
  /-- The number that `rand` returns. -/
  rand : Nat

/-- The machine with the permission bits of its inodes. -/
structure Host where
  /-- The files, the standard output and the paths opened. -/
  machine : Machine
  /-- The permission bits of each inode. -/
  mode : Nat → BitVec 32

/-- The files are others now, and the inode made last has these bits. -/
def Host.create (host : Host) (files : LinkedFiles) (mode : BitVec 32) : Host where
  machine := { host.machine with files := files }
  mode := Function.update host.mode host.machine.files.next mode

/-- The files are others now, without a new inode. -/
def Host.replace (host : Host) (files : LinkedFiles) : Host :=
  { host with machine := { host.machine with files := files } }

/-- Text goes to the standard output. -/
def Host.print (host : Host) (lib : Library) (bytes : List UInt8) : Host :=
  if lib.prints then
    { host with machine := { host.machine with
        out := { host.machine.out with bytes := host.machine.out.bytes ++ bytes } } }
  else host

/-- A command that makes one call: its failure is reported, and what it leaves is kept. -/
def attempt (fails : Bool) (result : Option LinkedFiles) (host : Host)
    (leave : LinkedFiles → Host) : ReturnStatus × Host :=
  if fails then (.errorHasOccurred, host)
  else
    match result with
    | none => (.errorHasOccurred, host)
    | some files => (.okey, leave files)

/-- `DEFAULT_DIR`. -/
def defaultDir : BitVec 32 := 0o775

/-- `ALL_FOR_ALL`. -/
def allForAll : Nat := 0o777

/-- `make_dir`. -/
def makeDir (calls : Calls) (nameDir : CString) (host : Host) : ReturnStatus × Host :=
  attempt calls.mkdirFails (host.machine.files.mkdir nameDir) host fun files =>
    host.create files (defaultDir &&& ~~~calls.umask)

/-- `print_dir`. -/
def printDir (calls : Calls) (pathNameDir : CString) (host : Host) : ReturnStatus × Host :=
  if calls.opendirFails then (.errorHasOccurred, host)
  else
    match host.machine.files.listing pathNameDir with
    | none => (.errorHasOccurred, host)
    | some names =>
      let host := host.print calls.toLibrary ((calls.order names).flatMap fun name => name ++ [10])
      if calls.closedirFails then (.errorHasOccurred, host) else (.okey, host)

/-- `remove_dir`. -/
def removeDir (calls : Calls) (nameDir : CString) (host : Host) : ReturnStatus × Host :=
  attempt calls.rmdirFails (host.machine.files.rmdir nameDir) host host.replace

/-- The bits of a file that `fopen` makes. -/
def newFileMode : BitVec 32 := 0o666

/-- `touch_file`. -/
def touchFile (calls : Calls) (nameFile : CString) (host : Host) : ReturnStatus × Host :=
  match openFile calls.toLibrary nameFile host.machine with
  | (machine, none) => (.errorHasOccurred, { host with machine := machine })
  | (machine, some _) =>
    let mode :=
      if machine.files.next = host.machine.files.next then host.mode
      else Function.update host.mode host.machine.files.next (newFileMode &&& ~~~calls.umask)
    (if calls.fcloseFails then .errorHasOccurred else .okey, ⟨machine, mode⟩)

/-- The bytes of a text. -/
def ascii (text : String) : List UInt8 := text.toList.map fun letter => UInt8.ofNat letter.toNat

/-- The name `ln_symbol_link` gives to its link. -/
def symbolLink : CString := CString.ofBytes (ascii "symbol_link")

/-- The name `ln_hard_link` gives to its file. -/
def hardLink : CString := CString.ofBytes (ascii "hard_link")

/-- `ln_symbol_link`. -/
def lnSymbolLink (calls : Calls) (nameFile : CString) (host : Host) : ReturnStatus × Host :=
  attempt calls.symlinkFails (host.machine.files.symlink nameFile symbolLink) host fun files =>
    host.create files 0o777

/-- `ln_hard_link`. -/
def lnHardLink (calls : Calls) (nameFile : CString) (host : Host) : ReturnStatus × Host :=
  attempt calls.linkFails (host.machine.files.link nameFile hardLink) host host.replace

/-- `hard_unlink`. -/
def hardUnlink (calls : Calls) (nameFile : CString) (host : Host) : ReturnStatus × Host :=
  attempt calls.unlinkFails (host.machine.files.unlink nameFile) host host.replace

/-- The bits of `st_mode` for the type of a file. -/
def typeBits : Inode → BitVec 32
  | .file _ => 0o100000
  | .folder _ _ => 0o040000
  | .link _ => 0o120000
  | .special _ => 0o020000

/-- What `stat` stores of a path: `st_mode` and `st_nlink`. -/
def statBuffer (host : Host) (path : CString) : Option (BitVec 32 × Nat) :=
  (host.machine.files.resolve true path).bind fun spot =>
    spot.inode.bind fun number =>
      (host.machine.files.inode number).map fun inode =>
        (typeBits inode ||| host.mode number, host.machine.files.nlink number)

/-- The letter of a bit, or the other one. -/
def letter (stMode mask : BitVec 32) (set unset : Char) : UInt8 :=
  UInt8.ofNat (if stMode &&& mask = 0 then unset else set).toNat

/-- `get_permissions`: the type letter is stored and then overwritten; nothing ends the string. -/
def getPermissions (stMode : BitVec 32) (block : Block) : Block :=
  let block := block.store
    [UInt8.ofNat (if stMode &&& 0o170000 = 0o040000 then 'd' else '-').toNat]
  block.store [letter stMode 0o400 'r' '-', letter stMode 0o200 'w' '-',
    letter stMode 0o100 'x' '-', letter stMode 0o040 'r' '-', letter stMode 0o020 'w' '-',
    letter stMode 0o100 'x' '-', letter stMode 0o004 'r' '-', letter stMode 0o002 'w' '-',
    letter stMode 0o001 'x' '-', letter stMode 0o1000 't' ' ']

/-- `print_permitted`, with the memory at the block that `malloc` returns. -/
def printPermitted (calls : Calls) (leftover : List UInt8) (nameFile : CString) (host : Host) :
    ReturnStatus × Host :=
  if calls.statFails then (.errorHasOccurred, host)
  else
    match statBuffer host nameFile with
    | none => (.errorHasOccurred, host)
    | some (stMode, stNlink) =>
      let permissions := getPermissions stMode ⟨10, leftover⟩
      let host := host.print calls.toLibrary
        (ascii "permissions: " ++ permissions.text.bytes ++ [10])
      (.okey, host.print calls.toLibrary (ascii "count hard links: " ++ decimal stNlink ++ [10]))

/-- `chmod`: the bits of what a path leads to. -/
def Host.chmod (host : Host) (path : CString) (mode : BitVec 32) : Option Host :=
  (host.machine.files.resolve true path).bind fun spot =>
    spot.inode.map fun number => { host with mode := Function.update host.mode number mode }

/-- `change_permitted`. -/
def changePermitted (calls : Calls) (nameFile : CString) (host : Host) : ReturnStatus × Host :=
  if calls.statFails then (.errorHasOccurred, host)
  else
    match statBuffer host nameFile with
    | none => (.errorHasOccurred, host)
    | some _ =>
      if calls.chmodFails then (.errorHasOccurred, host)
      else
        match host.chmod nameFile (BitVec.ofNat 32 (calls.rand % allForAll)) with
        | none => (.errorHasOccurred, host)
        | some host => (.okey, host)

/-- A bit of a mode is tested by its mask. -/
theorem and_twoPow_eq_zero (mode : BitVec 32) {i : Nat} (inside : i < 32) :
    mode &&& BitVec.twoPow 32 i = 0 ↔ mode.getLsbD i = false := by
  rw [BitVec.and_twoPow]
  cases mode.getLsbD i with
  | false => simp
  | true =>
    have nonzero : BitVec.twoPow 32 i ≠ 0 := by
      intro zero
      have bit := congrArg (fun bits => bits.getLsbD i) zero
      simp [inside] at bit
    simpa using nonzero

/-- Two modes show the same letter for a bit exactly when they agree on it. -/
theorem letter_eq_iff {mode mode' : BitVec 32} {set unset : Char} (mask : BitVec 32) (i : Nat)
    (inside : i < 32) (bit : mask = BitVec.twoPow 32 i)
    (differ : UInt8.ofNat set.toNat ≠ UInt8.ofNat unset.toNat) :
    letter mode mask set unset = letter mode' mask set unset ↔
      mode.getLsbD i = mode'.getLsbD i := by
  unfold letter
  rw [bit]
  simp only [and_twoPow_eq_zero _ inside]
  cases mode.getLsbD i <;> cases mode'.getLsbD i <;> simp [differ, differ.symm]

/-- The bits that `get_permissions` looks at. -/
def shownBits : BitVec 32 := 0o1767

/-- Modes agree on the bits that are looked at exactly when they agree on each of them. -/
theorem and_shownBits_eq_iff (mode mode' : BitVec 32) :
    mode &&& shownBits = mode' &&& shownBits ↔
      ∀ i ∈ [8, 7, 6, 5, 4, 2, 1, 0, 9], mode.getLsbD i = mode'.getLsbD i := by
  constructor
  · intro same i member
    have bits := congrArg (fun bits => bits.getLsbD i) same
    simp only [BitVec.getLsbD_and] at bits
    fin_cases member <;> simpa [shownBits] using bits
  · intro same
    apply BitVec.eq_of_getLsbD_eq
    intro i inside
    rw [BitVec.getLsbD_and, BitVec.getLsbD_and]
    by_cases shown : i ∈ [8, 7, 6, 5, 4, 2, 1, 0, 9]
    · rw [same i shown]
    · have hidden : shownBits.getLsbD i = false := by
        revert shown
        revert i
        decide
      rw [hidden]
      simp

/-- The ten bytes that `get_permissions` stores last. -/
def shownLetters (stMode : BitVec 32) : List UInt8 :=
  [letter stMode 0o400 'r' '-', letter stMode 0o200 'w' '-', letter stMode 0o100 'x' '-',
    letter stMode 0o040 'r' '-', letter stMode 0o020 'w' '-', letter stMode 0o100 'x' '-',
    letter stMode 0o004 'r' '-', letter stMode 0o002 'w' '-', letter stMode 0o001 'x' '-',
    letter stMode 0o1000 't' ' ']

/-- None of them is a terminator. -/
theorem zero_notMem_shownLetters (stMode : BitVec 32) : 0 ∉ shownLetters stMode := by
  have nonzero : ∀ mask set unset, UInt8.ofNat set.toNat ≠ 0 → UInt8.ofNat unset.toNat ≠ 0 →
      letter stMode mask set unset ≠ 0 := by
    intro mask set unset some none
    unfold letter
    split
    · exact none
    · exact some
  intro zero
  simp only [shownLetters, List.mem_cons, List.not_mem_nil, or_false] at zero
  rcases zero with zero | zero | zero | zero | zero | zero | zero | zero | zero | zero
  all_goals exact nonzero _ _ _ (by decide) (by decide) zero.symm

/-- The string at the block is the ten letters and then whatever lies behind the block. -/
theorem text_getPermissions (stMode : BitVec 32) (leftover : List UInt8) :
    (getPermissions stMode ⟨10, leftover⟩).text.bytes =
      shownLetters stMode ++ (CString.ofBytes (leftover.drop 10)).bytes := by
  have memory : (getPermissions stMode ⟨10, leftover⟩).memory =
      shownLetters stMode ++ leftover.drop 10 := by
    simp [getPermissions, Block.store, shownLetters]
  unfold Block.text CString.ofBytes
  rw [memory]
  apply List.takeWhile_append_of_pos
  intro byte member
  rw [bne_iff_ne]
  rintro rfl
  exact zero_notMem_shownLetters stMode member

/-- For any two modes and whatever the memory held before: the string that `print_permitted` prints
goes on behind the ten bytes of its block, and the two strings start with the same ten letters
exactly when the modes agree on the permission bits other than the group's execute bit and on the
sticky bit. So that bit is never shown, and all the others always are. -/
theorem permissions_shown (stMode stMode' : BitVec 32) (leftover leftover' : List UInt8) :
    (getPermissions stMode ⟨10, leftover⟩).text.bytes.drop 10 =
        (CString.ofBytes (leftover.drop 10)).bytes ∧
      ((getPermissions stMode ⟨10, leftover⟩).text.bytes.take 10 =
          (getPermissions stMode' ⟨10, leftover'⟩).text.bytes.take 10 ↔
        stMode &&& shownBits = stMode' &&& shownBits) := by
  have ten : ∀ mode, (shownLetters mode).length = 10 := fun _ => rfl
  rw [text_getPermissions, text_getPermissions]
  refine ⟨List.drop_left' (ten stMode), ?_⟩
  rw [List.take_left' (ten stMode), List.take_left' (ten stMode'), and_shownBits_eq_iff]
  simp only [shownLetters, List.cons.injEq, and_true, List.forall_mem_cons, List.not_mem_nil,
    false_imp_iff, implies_true]
  rw [letter_eq_iff 0o400 8 (by decide) rfl (by decide),
    letter_eq_iff 0o200 7 (by decide) rfl (by decide),
    letter_eq_iff 0o100 6 (by decide) rfl (by decide),
    letter_eq_iff 0o040 5 (by decide) rfl (by decide),
    letter_eq_iff 0o020 4 (by decide) rfl (by decide),
    letter_eq_iff 0o004 2 (by decide) rfl (by decide),
    letter_eq_iff 0o002 1 (by decide) rfl (by decide),
    letter_eq_iff 0o001 0 (by decide) rfl (by decide),
    letter_eq_iff 0o1000 9 (by decide) rfl (by decide)]
  constructor
  · rintro ⟨ur, uw, ux, gr, gw, -, others⟩
    exact ⟨ur, uw, ux, gr, gw, others⟩
  · rintro ⟨ur, uw, ux, gr, gw, others⟩
    exact ⟨ur, uw, ux, gr, gw, ux, others⟩

end NsuOs.Commands
