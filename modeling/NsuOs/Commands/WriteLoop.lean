import NsuOs.Commands.SetCommands

/-!
# When the loop around `fwrite` tells the truth

`write_to_file_implements` keeps the count of `fwrite`, a `size_t`, in an `int` and looks for a
negative value. A count below 2^31 is kept as it is, and zero among them makes no progress, so a
stream that takes nothing any more is asked forever. Of a larger count only the lower 32 bits are
kept: either they look like an error, or bytes that were taken are sent again. A call is followed
through the sums of the counts and of what is kept of them up to the first round that ends it.
-/
namespace NsuOs.Commands

variable {accepts : Nat → Nat} {size k : Nat}

/-- What is kept of a count that does not look like an error. -/
theorem written_of_lt {count : Nat} (low : count % 2 ^ 32 < 2 ^ 31) :
    written count = (count % 2 ^ 32 : Nat) := by
  unfold written
  rw [Int32.toInt_ofNat', Int.bmod_def]
  unfold Int32.size
  split <;> omega

/-- A count that looks like an error. -/
theorem written_of_le {count : Nat} (high : 2 ^ 31 ≤ count % 2 ^ 32) : written count ≤ -1 := by
  unfold written
  rw [Int32.toInt_ofNat', Int.bmod_def]
  unfold Int32.size
  split <;> omega

/-- The bytes taken by the first calls. -/
def total (accepts : Nat → Nat) (k : Nat) : Nat := ∑ j ∈ Finset.range k, accepts j

/-- The sum of what is kept of their counts. -/
def kept (accepts : Nat → Nat) (k : Nat) : Nat := ∑ j ∈ Finset.range k, accepts j % 2 ^ 32

/-- No call takes more bytes than it is given. -/
def Legal (size : Nat) (accepts : Nat → Nat) : Prop :=
  ∀ k, kept accepts k < size → accepts k ≤ size - kept accepts k

/-- What the first calls have sent. -/
def sentAfter (accepts : Nat → Nat) (k : Nat) : Sent :=
  ⟨k, (List.range k).map fun j => (kept accepts j, accepts j)⟩

/-- One more call. -/
theorem sentAfter_succ (accepts : Nat → Nat) (k : Nat) :
    sentAfter accepts (k + 1) = (sentAfter accepts k).piece (kept accepts k) (accepts k) := by
  simp [sentAfter, Sent.piece, List.range_succ]

/-- The offsets sent by one more call. -/
theorem offsets_piece (sent : Sent) (offset count : Nat) :
    (sent.piece offset count).offsets = sent.offsets ++ List.range' offset count := by
  simp [Sent.offsets, Sent.piece]

/-- As many offsets are sent as bytes are taken. -/
theorem length_offsets (accepts : Nat → Nat) (k : Nat) :
    (sentAfter accepts k).offsets.length = total accepts k := by
  induction k with
  | zero => rfl
  | succ k ih =>
    unfold total at ih ⊢
    rw [sentAfter_succ, offsets_piece, List.length_append, ih, List.length_range',
      Finset.sum_range_succ]

/-- Not more is kept than was taken. -/
theorem kept_le_total (accepts : Nat → Nat) (k : Nat) : kept accepts k ≤ total accepts k :=
  Finset.sum_le_sum fun j _ => Nat.mod_le (accepts j) (2 ^ 32)

/-- What is kept grows. -/
theorem kept_mono (accepts : Nat → Nat) {j : Nat} (before : j ≤ k) :
    kept accepts j ≤ kept accepts k :=
  Finset.sum_le_sum_of_subset (Finset.range_mono before)

/-- Everything is kept exactly when no count is too large for an `int`. -/
theorem kept_eq_total_iff (low : ∀ j < k, accepts j % 2 ^ 32 < 2 ^ 31) :
    kept accepts k = total accepts k ↔ ∀ j < k, accepts j < 2 ^ 31 := by
  unfold kept total
  rw [Finset.sum_eq_sum_iff_of_le fun j _ => Nat.mod_le (accepts j) (2 ^ 32)]
  constructor
  · intro same j before
    rw [← same j (Finset.mem_range.mpr before)]
    exact low j before
  · intro small j member
    have bound := small j (Finset.mem_range.mp member)
    exact Nat.mod_eq_of_lt (by omega)

/-- Then the bytes are sent one after the other. -/
theorem offsets_of_small (small : ∀ j < k, accepts j < 2 ^ 31) :
    (sentAfter accepts k).offsets = List.range (total accepts k) := by
  induction k with
  | zero => rfl
  | succ k ih =>
    have earlier : ∀ j < k, accepts j < 2 ^ 31 := fun j before => small j (by omega)
    have low : ∀ j < k, accepts j % 2 ^ 32 < 2 ^ 31 := by
      intro j before
      exact Nat.lt_of_le_of_lt (Nat.mod_le _ _) (earlier j before)
    have sum : total accepts (k + 1) = total accepts k + accepts k := Finset.sum_range_succ _ _
    rw [sentAfter_succ, offsets_piece, ih earlier, (kept_eq_total_iff low).mpr earlier, sum,
      List.range_eq_range', List.range_eq_range', ← List.range'_append_1, Nat.zero_add]

/-- The rounds up to a call leave what it finds. -/
theorem rounds_to (legal : Legal size accepts) (low : ∀ j < k, accepts j % 2 ^ 32 < 2 ^ 31)
    (pending : ∀ j < k, kept accepts j < size) (fuel : Nat) :
    writeToFileImplements accepts size (fuel + k) 0 ⟨0, []⟩ =
      writeToFileImplements accepts size fuel (kept accepts k) (sentAfter accepts k) := by
  induction k generalizing fuel with
  | zero => rfl
  | succ k ih =>
    have before := ih (fun j early => low j (by omega)) (fun j early => pending j (by omega))
      (fuel + 1)
    have order : fuel + (k + 1) = fuel + 1 + k := by omega
    have count : min (accepts (sentAfter accepts k).calls) (size - kept accepts k) = accepts k :=
      Nat.min_eq_left (legal k (pending k (by omega)))
    have value := written_of_lt (low k (by omega))
    have passes : ¬written (accepts k) ≤ -1 := by omega
    have sum : kept accepts k + (written (accepts k)).toNat = kept accepts (k + 1) := by
      rw [value]
      exact (Finset.sum_range_succ _ _).symm
    rw [order, before, writeToFileImplements, if_pos (pending k (by omega))]
    simp only [count]
    rw [if_neg passes, sum, ← sentAfter_succ]

/-- A round ends the call: everything seems to be written, or the count looks like an error. -/
def Ends (size : Nat) (accepts : Nat → Nat) (k : Nat) : Prop :=
  size ≤ kept accepts k ∨ 2 ^ 31 ≤ accepts k % 2 ^ 32

instance : Decidable (Ends size accepts k) :=
  inferInstanceAs (Decidable (size ≤ kept accepts k ∨ 2 ^ 31 ≤ accepts k % 2 ^ 32))

/-- Before the first such round no count looks like an error. -/
theorem low_of_goes (goes : ∀ j < k, ¬Ends size accepts j) {j : Nat} (before : j < k) :
    accepts j % 2 ^ 32 < 2 ^ 31 :=
  Nat.lt_of_not_le fun high => goes j before (.inr high)

/-- And something seems to be left. -/
theorem pending_of_goes (goes : ∀ j < k, ¬Ends size accepts j) {j : Nat} (before : j < k) :
    kept accepts j < size :=
  Nat.lt_of_not_le fun done => goes j before (.inl done)

/-- Before the first such round nothing is returned. -/
theorem none_before (legal : Legal size accepts) (goes : ∀ j < k, ¬Ends size accepts j) {fuel : Nat}
    (few : fuel ≤ k) : writeToFileImplements accepts size fuel 0 ⟨0, []⟩ = none := by
  have low : ∀ j < fuel, accepts j % 2 ^ 32 < 2 ^ 31 := fun j before => low_of_goes goes (by omega)
  have pending : ∀ j < fuel, kept accepts j < size :=
    fun j before => pending_of_goes goes (by omega)
  have rounds := rounds_to legal low pending 0
  rw [Nat.zero_add] at rounds
  rw [rounds]
  rfl

/-- What the call returns at the round that ends it. -/
def resultAt (size : Nat) (accepts : Nat → Nat) (k : Nat) : ReturnStatus × Sent :=
  if size ≤ kept accepts k then (.okey, sentAfter accepts k)
  else (.errorHasOccurred, sentAfter accepts (k + 1))

/-- The call returns what the first round that ends it says, and nothing else. -/
theorem returns_iff (legal : Legal size accepts) (goes : ∀ j < k, ¬Ends size accepts j)
    (ends : Ends size accepts k) (result : ReturnStatus × Sent) :
    (∃ fuel, writeToFileImplements accepts size fuel 0 ⟨0, []⟩ = some result) ↔
      result = resultAt size accepts k := by
  have low : ∀ j < k, accepts j % 2 ^ 32 < 2 ^ 31 := fun j before => low_of_goes goes before
  have pending : ∀ j < k, kept accepts j < size := fun j before => pending_of_goes goes before
  have last : ∀ fuel, writeToFileImplements accepts size (fuel + 1) (kept accepts k)
      (sentAfter accepts k) = some (resultAt size accepts k) := by
    intro fuel
    rw [writeToFileImplements]
    unfold resultAt
    by_cases done : size ≤ kept accepts k
    · rw [if_neg (Nat.not_lt.mpr done), if_pos done]
    · have high : 2 ^ 31 ≤ accepts k % 2 ^ 32 := ends.resolve_left done
      have unfinished : kept accepts k < size := Nat.lt_of_not_le done
      have count : min (accepts (sentAfter accepts k).calls) (size - kept accepts k) = accepts k :=
        Nat.min_eq_left (legal k unfinished)
      rw [if_pos unfinished, if_neg done]
      simp only [count]
      rw [if_pos (written_of_le high), sentAfter_succ]
  constructor
  · rintro ⟨fuel, returned⟩
    by_cases few : fuel ≤ k
    · rw [none_before legal goes few] at returned
      cases returned
    · have enough : fuel = fuel - k - 1 + 1 + k := by omega
      rw [enough, rounds_to legal low pending, last] at returned
      exact (Option.some.inj returned).symm
  · rintro rfl
    exact ⟨0 + 1 + k, (rounds_to legal low pending (0 + 1)).trans (last 0)⟩

/-- The call returns, and it returns `OKEY` exactly when the bytes at all offsets were taken, in
order and once each. -/
def LoopHonest (size : Nat) (accepts : Nat → Nat) : Prop :=
  ∃ fuel status sent, writeToFileImplements accepts size fuel 0 ⟨0, []⟩ = some (status, sent) ∧
    (status = .okey ↔ sent.offsets = List.range size)

/-- Some calls with counts that fit into an `int` take everything. -/
def Complete (size : Nat) (accepts : Nat → Nat) : Prop :=
  ∃ k, (∀ j < k, accepts j < 2 ^ 31) ∧ total accepts k = size

/-- A count looks like an error before everything seems to be written, and not because just then all
that was left was taken. -/
def Refused (size : Nat) (accepts : Nat → Nat) : Prop :=
  ∃ k, (∀ j < k, accepts j % 2 ^ 32 < 2 ^ 31) ∧ kept accepts k < size ∧
    2 ^ 31 ≤ accepts k % 2 ^ 32 ∧
    ¬((∀ j < k, accepts j < 2 ^ 31) ∧ total accepts (k + 1) = size)

/-- A call that takes everything ends the loop. -/
theorem ends_of_complete (small : ∀ j < k, accepts j < 2 ^ 31) (all : total accepts k = size) :
    kept accepts k = size := by
  have low : ∀ j < k, accepts j % 2 ^ 32 < 2 ^ 31 := by
    intro j before
    exact Nat.lt_of_le_of_lt (Nat.mod_le _ _) (small j before)
  rw [(kept_eq_total_iff low).mpr small, all]

/-- When everything seems to be written, it is exactly if some calls took it. -/
theorem okey_iff (goes : ∀ j < k, ¬Ends size accepts j) (done : size ≤ kept accepts k) :
    (sentAfter accepts k).offsets = List.range size ↔
      Complete size accepts ∨ Refused size accepts := by
  have low : ∀ j < k, accepts j % 2 ^ 32 < 2 ^ 31 := fun j before => low_of_goes goes before
  constructor
  · intro whole
    have lengths := congrArg List.length whole
    rw [length_offsets, List.length_range] at lengths
    have bound := kept_le_total accepts k
    exact .inl ⟨k, (kept_eq_total_iff low).mp (by omega), lengths⟩
  · rintro (⟨other, small, all⟩ | ⟨other, -, unfinished, high, -⟩)
    · have reached := ends_of_complete small all
      have first : k ≤ other := by
        by_contra late
        exact goes other (by omega) (.inl reached.ge)
      have fits : ∀ j < k, accepts j < 2 ^ 31 := fun j before => small j (by omega)
      have grown := kept_mono accepts first
      rw [offsets_of_small fits, ← (kept_eq_total_iff low).mpr fits]
      congr 1
      omega
    · have first : k ≤ other := by
        by_contra late
        exact goes other (by omega) (.inr high)
      have grown := kept_mono accepts first
      omega

/-- When a count looks like an error, everything was taken exactly if the counts before it fit and
all of them make up the size. -/
theorem whole_iff (low : ∀ j < k, accepts j % 2 ^ 32 < 2 ^ 31)
    (high : 2 ^ 31 ≤ accepts k % 2 ^ 32) :
    (sentAfter accepts (k + 1)).offsets = List.range size ↔
      (∀ j < k, accepts j < 2 ^ 31) ∧ total accepts (k + 1) = size := by
  have sum : total accepts (k + 1) = total accepts k + accepts k := Finset.sum_range_succ _ _
  constructor
  · intro whole
    have lengths := congrArg List.length whole
    rw [length_offsets, List.length_range] at lengths
    refine ⟨(kept_eq_total_iff low).mp ?_, lengths⟩
    -- the first byte of the last piece stands where it belongs
    have positive : 0 < accepts k := Nat.lt_of_lt_of_le (by omega) (Nat.mod_le (accepts k) (2 ^ 32))
    rw [sentAfter_succ, offsets_piece] at whole
    have there := congrArg (fun list => list[total accepts k]?) whole
    rw [List.getElem?_append_right (by rw [length_offsets]), length_offsets, Nat.sub_self,
      List.getElem?_range' positive, List.getElem?_range (by omega)] at there
    simpa using there
  · rintro ⟨small, all⟩
    have before : kept accepts k = total accepts k := (kept_eq_total_iff low).mpr small
    rw [sentAfter_succ, offsets_piece, offsets_of_small small, before, ← all, sum,
      List.range_eq_range', List.range_eq_range', ← List.range'_append_1, Nat.zero_add]

/-- Then the error is right exactly if the count is one of those. -/
theorem error_iff (goes : ∀ j < k, ¬Ends size accepts j) (unfinished : kept accepts k < size)
    (high : 2 ^ 31 ≤ accepts k % 2 ^ 32) :
    (sentAfter accepts (k + 1)).offsets ≠ List.range size ↔
      Complete size accepts ∨ Refused size accepts := by
  have low : ∀ j < k, accepts j % 2 ^ 32 < 2 ^ 31 := fun j before => low_of_goes goes before
  rw [ne_eq, whole_iff low high]
  constructor
  · intro partly
    exact .inr ⟨k, low, unfinished, high, partly⟩
  · rintro (⟨other, small, all⟩ | ⟨other, fine, pending, wrong, partly⟩)
    · have reached := ends_of_complete small all
      have later : k < other := by
        by_contra early
        have grown := kept_mono accepts (Nat.le_of_not_lt early)
        omega
      have fits := small k later
      have same := Nat.mod_le (accepts k) (2 ^ 32)
      omega
    · rcases Nat.lt_trichotomy other k with early | rfl | late
      · exact absurd (.inr wrong) (goes other early)
      · exact partly
      · have fits := fine k late
        omega

/-- The call tells the truth exactly if some calls take everything, or it is refused. -/
theorem loopHonest_iff (legal : Legal size accepts) :
    LoopHonest size accepts ↔ Complete size accepts ∨ Refused size accepts := by
  by_cases ending : ∃ k, Ends size accepts k
  · have goes : ∀ j < Nat.find ending, ¬Ends size accepts j :=
      fun j before => Nat.find_min ending before
    have ends : Ends size accepts (Nat.find ending) := Nat.find_spec ending
    generalize Nat.find ending = k at goes ends
    have returned := returns_iff legal goes ends
    have honest : LoopHonest size accepts ↔ ((resultAt size accepts k).1 = .okey ↔
        (resultAt size accepts k).2.offsets = List.range size) := by
      constructor
      · rintro ⟨fuel, status, sent, done, right⟩
        have same := (returned (status, sent)).mp ⟨fuel, done⟩
        rw [← same]
        exact right
      · intro right
        obtain ⟨fuel, done⟩ := (returned _).mpr rfl
        exact ⟨fuel, _, _, done, right⟩
    rw [honest]
    unfold resultAt
    by_cases done : size ≤ kept accepts k
    · rw [if_pos done, ← okey_iff goes done]
      simp
    · have unfinished := Nat.lt_of_not_le done
      rw [if_neg done, ← error_iff goes unfinished (ends.resolve_left done)]
      simp
  · rw [not_exists] at ending
    refine iff_of_false ?_ ?_
    · rintro ⟨fuel, status, sent, returned, -⟩
      rw [none_before legal (fun j _ => ending j) (Nat.le_refl fuel)] at returned
      cases returned
    · rintro (⟨k, small, all⟩ | ⟨k, -, -, high, -⟩)
      · exact ending k (.inl (ends_of_complete small all).ge)
      · exact ending k (.inr high)

section Callers

variable {lib : Library} {fuel : Nat} {buffer content : List UInt8} {out after : Stdout}
  {status : ReturnStatus}

/-- For a size that fits into an `int` the call returns only when everything left was taken, and
then it returns `OKEY`. -/
theorem short_returns (short : size < 2 ^ 31) {sum : Nat} {sent final : Sent} (inside : sum ≤ size)
    (returned : writeToFileImplements accepts size fuel sum sent = some (status, final)) :
    status = .okey ∧ final.offsets = sent.offsets ++ List.range' sum (size - sum) := by
  induction fuel generalizing sum sent with
  | zero => cases returned
  | succ fuel ih =>
    rw [writeToFileImplements] at returned
    split at returned
    · rename_i pending
      generalize counted : min (accepts sent.calls) (size - sum) = count at returned
      have bound : count ≤ size - sum := by
        rw [← counted]
        exact Nat.min_le_right _ _
      have same : count % 2 ^ 32 = count := Nat.mod_eq_of_lt (by omega)
      have value : written count = count := by
        rw [written_of_lt (by omega), same]
      have passes : ¬written count ≤ -1 := by omega
      have advance : sum + (written count).toNat = sum + count := by omega
      simp only at returned
      rw [if_neg passes, advance] at returned
      obtain ⟨okey, offsets⟩ := ih (by omega) returned
      refine ⟨okey, ?_⟩
      have parts : size - sum = count + (size - (sum + count)) := by omega
      rw [offsets, offsets_piece, List.append_assoc, parts, ← List.range'_append_1]
    · rename_i done
      obtain ⟨rfl, rfl⟩ := Prod.mk.inj (Option.some.inj returned)
      have nothing : size - sum = 0 := by omega
      rw [nothing]
      simp

/-- So the standard output has got the whole buffer. -/
theorem writeOut_returns (short : buffer.length < 2 ^ 31)
    (returned : writeOut lib fuel buffer out = some (status, after)) :
    status = .okey ∧ after.bytes = out.bytes ++ buffer := by
  obtain ⟨⟨inner, sent⟩, done, same⟩ := Option.map_eq_some_iff.mp returned
  obtain ⟨rfl, rfl⟩ := Prod.mk.inj same
  obtain ⟨okey, offsets⟩ := short_returns short (Nat.zero_le _) done
  refine ⟨okey, ?_⟩
  have whole : sent.offsets = List.range buffer.length := by
    rw [offsets, List.range_eq_range']
    rfl
  change out.bytes ++ sent.offsets.map (fun offset => buffer.getD offset 0) = out.bytes ++ buffer
  rw [whole]
  congr 1
  exact Buffer.read_ofBytes buffer

/-- A piece of a file is as long as it is asked for. -/
theorem length_chunk {pos left : Nat} (inside : pos + left ≤ content.length) :
    ((content.drop pos).take (min left bufferSize)).length = min left bufferSize := by
  rw [List.length_take, List.length_drop]
  omega

/-- When the reads succeed the loop of `write_file` copies the next piece and goes on behind it. -/
theorem writeChunks_step (reads : ∀ round, lib.readFails round = false) {pos left : Nat}
    (pending : left ≠ 0) (inside : pos + left ≤ content.length) (round : Nat) (out : Stdout) :
    writeChunks lib fuel content round pos left out =
      (writeOut lib fuel ((content.drop pos).take (min left bufferSize)) out).bind fun result =>
        if result.1 = .errorHasOccurred then some (.errorHasOccurred, result.2)
        else
          writeChunks lib fuel content (round + 1) (pos + min left bufferSize)
            (left - min left bufferSize) result.2 := by
  have unflagged : ¬(lib.readFails round = true ∨ min left bufferSize < min left bufferSize) := by
    rw [reads round]
    simp
  conv_lhs => rw [writeChunks]
  simp only [length_chunk inside]
  rw [if_neg pending, if_neg unflagged]

/-- It returns only when it has copied everything. -/
theorem writeChunks_returns (reads : ∀ round, lib.readFails round = false) {round pos left : Nat}
    (inside : pos + left ≤ content.length)
    (returned : writeChunks lib fuel content round pos left out = some (status, after)) :
    status = .okey ∧ after.bytes = out.bytes ++ (content.drop pos).take left := by
  induction left using Nat.strong_induction_on generalizing round pos out with
  | _ left ih =>
    by_cases done : left = 0
    · rw [writeChunks, if_pos done] at returned
      obtain ⟨rfl, rfl⟩ := Prod.mk.inj (Option.some.inj returned)
      simp [done]
    · have some_byte : 0 < min left bufferSize := Nat.lt_min.mpr ⟨by omega, by decide⟩
      have least : min left bufferSize ≤ left := Nat.min_le_left _ _
      have short : ((content.drop pos).take (min left bufferSize)).length < 2 ^ 31 := by
        rw [length_chunk inside]
        exact Nat.lt_of_le_of_lt (Nat.min_le_right _ _) (by decide)
      rw [writeChunks_step reads done inside] at returned
      obtain ⟨⟨middle, sent⟩, first, later⟩ := Option.bind_eq_some_iff.mp returned
      obtain ⟨rfl, bytes⟩ := writeOut_returns short first
      simp only [reduceCtorEq, if_false] at later
      obtain ⟨okey, rest⟩ := ih (left - min left bufferSize) (by omega) (by omega) later
      refine ⟨okey, ?_⟩
      have parts : left = min left bufferSize + (left - min left bufferSize) := by omega
      rw [rest, bytes, List.append_assoc]
      congr 1
      conv_rhs => rw [parts, List.take_add, List.drop_drop]

/-- What `printf` has added. -/
def Stdout.printed (out : Stdout) (lib : Library) (pos : Nat) : List UInt8 :=
  if lib.prints then out.bytes ++ decimal pos else out.bytes

/-- So does `write_file`. -/
theorem writeFile_returns (seeks : lib.seekFails = false)
    (reads : ∀ round, lib.readFails round = false) {pos : Nat} (inside : pos ≤ content.length)
    (returned : writeFile lib fuel content pos out = some (status, after)) :
    status = .okey ∧ after.bytes = out.printed lib pos ++ content.take pos := by
  unfold writeFile at returned
  simp only [seeks, Bool.false_eq_true, if_false] at returned
  obtain ⟨okey, bytes⟩ := writeChunks_returns reads (by omega) returned
  refine ⟨okey, ?_⟩
  rw [bytes, List.drop_zero]
  congr 1
  unfold Stdout.printed
  split
  · rfl
  · rfl

/-- The two callers never report that the output fails: once what they copy is read, they return
only when all of it was taken. -/
structure NeverReported : Prop where
  /-- `write_file`, when its input can be read. -/
  writeFile : ∀ (lib : Library) (fuel : Nat) (content : List UInt8) (pos : Nat)
    (out after : Stdout) (status : ReturnStatus), lib.seekFails = false →
    (∀ round, lib.readFails round = false) → pos ≤ content.length →
    writeFile lib fuel content pos out = some (status, after) →
    status = .okey ∧ after.bytes = out.printed lib pos ++ content.take pos
  /-- The loop of `print_sym_link`, when the target can be read. -/
  printTarget : ∀ (lib : Library) (fuel : Nat) (symLink : CString) (machine after : Machine)
    (target : List UInt8) (status : ReturnStatus),
    readTarget lib machine.files symLink = some target →
    printTarget lib fuel symLink machine = some (status, after) →
    status = .okey ∧ after.out.bytes = machine.out.bytes ++ target

/-- They do not. -/
theorem neverReported : NeverReported where
  writeFile lib fuel content pos out after status seeks reads inside returned :=
    writeFile_returns seeks reads inside returned
  printTarget lib fuel symLink machine after target status stored returned := by
    unfold printTarget at returned
    rw [stored] at returned
    obtain ⟨⟨inner, out⟩, done, same⟩ := Option.map_eq_some_iff.mp returned
    obtain ⟨rfl, rfl⟩ := Prod.mk.inj same
    have short : target.length < 2 ^ 31 := by
      unfold readTarget at stored
      split at stored
      · cases stored
      · obtain ⟨path, -, rfl⟩ := Option.map_eq_some_iff.mp stored
        have bound := List.length_take_le bufferSize path.bytes
        unfold bufferSize at bound ⊢
        omega
    exact writeOut_returns short done

end Callers

/-- For every size and every sequence of counts that `fwrite` may return, the call returns, with
`OKEY` exactly when everything was taken in order and once, exactly if some calls with counts that
fit into an `int` take everything, or a count looks like an error before that. The callers never
learn of a failure. -/
theorem write_loop_honest_iff (size : Nat) (accepts : Nat → Nat) (legal : Legal size accepts) :
    (LoopHonest size accepts ↔ Complete size accepts ∨ Refused size accepts) ∧ NeverReported :=
  ⟨loopHonest_iff legal, neverReported⟩

/-- A stream that takes one byte and then two. -/
def oneThenTwo (k : Nat) : Nat := [1, 2].getD k 0

/-- It takes three bytes, and the call tells so. -/
theorem write_loop_three : Legal 3 oneThenTwo ∧ LoopHonest 3 oneThenTwo := by
  have legal : Legal 3 oneThenTwo := by
    intro k pending
    rcases k with _ | _ | k
    · decide
    · decide
    · exact Nat.zero_le _
  have complete : Complete 3 oneThenTwo := by
    refine ⟨2, ?_, by decide⟩
    intro j before
    interval_cases j
    · decide
    · decide
  exact ⟨legal, (write_loop_honest_iff 3 oneThenTwo legal).1.mpr (.inl complete)⟩

/-- A stream that takes nothing is asked for one byte forever. -/
theorem write_loop_stuck : Legal 1 (fun _ => 0) ∧ ¬LoopHonest 1 (fun _ => 0) := by
  have legal : Legal 1 (fun _ => 0) := fun _ _ => Nat.zero_le _
  have goes : ∀ k, ¬Ends 1 (fun _ => 0) k := by
    intro k
    simp [Ends, kept]
  refine ⟨legal, ?_⟩
  rintro ⟨fuel, status, sent, returned, -⟩
  rw [none_before legal (fun j _ => goes j) (Nat.le_refl fuel)] at returned
  cases returned

end NsuOs.Commands
