import NsuOs.Echo.Streams

/-!
# The echo loop when the client leaves

A client has sent a stream and ended it: from then on `read` returns zero. `communicate_client`
leaves its loop on `ERROR` only, so it takes the zero for a message of no bytes, writes no bytes and
reads again. The answers of the calls are the environment's: how the stream is split into read
results, and which writes fail. A write that fails is one that returns `ERROR`, as it does where
`SIGPIPE` is ignored. The message is printed from a buffer that nothing terminates; the print does
not touch what is written back and is left out.
-/
namespace NsuOs.Echo

open NsuOs.Run

/-- A splitting of a stream into the results of single reads: each returns at least one byte and
at most the size of the buffer. -/
def Splits (pieces : List Nat) (stream : List UInt8) : Prop :=
  (∀ count ∈ pieces, 0 < count ∧ count ≤ serverSize) ∧ pieces.sum = stream.length

/-- What the `read` of an iteration returns: the next piece, and zero after the last one. -/
def readResult (pieces : List Nat) (iteration : Nat) : Nat := pieces.getD iteration 0

/-- The two calls of one iteration of `communicate_client`. -/
def iteration (pieces : List Nat) (writes : Nat → Bool) (number : Nat) : List Label :=
  [.serverRead (some (readResult pieces number)), .serverWrite (writes number)]

/-- The calls of the first iterations. -/
def iterations (pieces : List Nat) (writes : Nat → Bool) : Nat → List Label
  | 0 => []
  | count + 1 => iterations pieces writes count ++ iteration pieces writes count

/-- The child enters `communicate_client` for a client that has sent its stream and ended it. -/
def Connection.leaving (stream : List UInt8) (input buff : Buffer) : Connection :=
  ⟨⟨.stopped, input, [], stream, [], []⟩, ⟨.read, buff, 0⟩, stream, []⟩

/-- After finitely many iterations the loop is left, the socket closed, and exactly the bytes of
the stream have been written back. -/
def EchoesAndReturns (stream : List UInt8) (pieces : List Nat) (writes : Nat → Bool)
    (input buff : Buffer) : Prop :=
  ∃ count connection,
    exec Connection.next (.leaving stream input buff) (iterations pieces writes count) =
      some connection ∧
    connection.server.pc = .stopped ∧ connection.toClient = stream

/-- The connection with the first bytes of the stream written back and the server at its `read`. -/
def Connection.echoed (stream : List UInt8) (input buff : Buffer) (count : Nat) : Connection :=
  ⟨⟨.stopped, input, [], stream, [], []⟩, ⟨.read, buff, 0⟩, stream.drop count, stream.take count⟩

/-- The bytes of the first pieces. -/
def bytesOf (pieces : List Nat) (count : Nat) : Nat := (pieces.take count).sum

/-- One more iteration takes what its `read` returns. -/
theorem bytesOf_succ (pieces : List Nat) (number : Nat) :
    bytesOf pieces (number + 1) = bytesOf pieces number + readResult pieces number := by
  unfold bytesOf readResult
  rcases Nat.lt_or_ge number pieces.length with inside | outside
  · rw [List.take_add_one, List.sum_append, List.getElem?_eq_getElem inside]
    simp [List.getD, List.getElem?_eq_getElem inside]
  · rw [List.take_of_length_le outside, List.take_of_length_le (by omega)]
    simp [List.getD, List.getElem?_eq_none outside]

/-- The pieces never go beyond the stream. -/
theorem bytesOf_le {pieces : List Nat} {stream : List UInt8} (splits : Splits pieces stream)
    (count : Nat) : bytesOf pieces count ≤ stream.length := by
  have whole : (pieces.take count).sum + (pieces.drop count).sum = pieces.sum :=
    List.sum_take_add_sum_drop pieces count
  have total := splits.2
  unfold bytesOf
  omega

/-- All bytes are taken exactly when all pieces are. -/
theorem bytesOf_eq_iff {pieces : List Nat} {stream : List UInt8} (splits : Splits pieces stream)
    (count : Nat) : bytesOf pieces count = stream.length ↔ pieces.length ≤ count := by
  constructor
  · intro all
    by_contra short
    have inside : count < pieces.length := by omega
    have positive : 0 < readResult pieces count := by
      have piece := (splits.1 _ (List.getElem_mem inside)).1
      simpa [readResult, List.getD, List.getElem?_eq_getElem inside] using piece
    have step := bytesOf_succ pieces count
    have bound := bytesOf_le splits (count + 1)
    omega
  · intro long
    rw [bytesOf, List.take_of_length_le long, splits.2]

/-- The `read` of every iteration is one the socket allows. -/
theorem readable_result {pieces : List Nat} {stream : List UInt8} (splits : Splits pieces stream)
    (number : Nat) :
    Readable (stream.drop (bytesOf pieces number)) serverSize true (readResult pieces number) := by
  have step := bytesOf_succ pieces number
  have bound := bytesOf_le splits (number + 1)
  rcases Nat.lt_or_ge number pieces.length with inside | outside
  · have piece := splits.1 _ (List.getElem_mem inside)
    have result : readResult pieces number = pieces[number] := by
      simp [readResult, List.getD, List.getElem?_eq_getElem inside]
    rw [← result] at piece
    refine ⟨piece.2, ?_, .inl piece.1⟩
    rw [List.length_drop]
    omega
  · have ended := (bytesOf_eq_iff splits number).mpr outside
    have result : readResult pieces number = 0 := by
      simp [readResult, List.getD, List.getElem?_eq_none outside]
    have nothing : stream.drop (bytesOf pieces number) = [] := by
      rw [ended, List.drop_length]
    rw [result]
    exact ⟨Nat.zero_le _, Nat.zero_le _, .inr ⟨nothing, rfl⟩⟩

/-- The `read` of an iteration puts the next piece into the buffer. -/
theorem read_piece {stream : List UInt8} {pieces : List Nat} (splits : Splits pieces stream)
    (input buff : Buffer) (number : Nat) :
    (Connection.echoed stream input buff (bytesOf pieces number)).next
        (.serverRead (some (readResult pieces number))) =
      some ⟨⟨.stopped, input, [], stream, [], []⟩,
        ⟨.write, receive buff (stream.drop (bytesOf pieces number)) (readResult pieces number),
          readResult pieces number⟩,
        stream.drop (bytesOf pieces (number + 1)), stream.take (bytesOf pieces number)⟩ := by
  have readable := readable_result splits number
  rw [bytesOf_succ, ← List.drop_drop]
  exact if_pos ⟨rfl, readable⟩

/-- An iteration whose `write` succeeds sends the next piece back and is at its `read` again. -/
theorem iteration_echo {stream : List UInt8} {pieces : List Nat} (splits : Splits pieces stream)
    {writes : Nat → Bool} (input buff : Buffer) {number : Nat} (written : writes number = true) :
    ∃ after, exec Connection.next (.echoed stream input buff (bytesOf pieces number))
        (iteration pieces writes number) =
      some (.echoed stream input after (bytesOf pieces (number + 1))) := by
  have inside := (readable_result splits number).2.1
  have joined : stream.take (bytesOf pieces number) ++
      (stream.drop (bytesOf pieces number)).take (readResult pieces number) =
        stream.take (bytesOf pieces (number + 1)) := by
    rw [bytesOf_succ, List.take_add]
  refine ⟨(receive buff (stream.drop (bytesOf pieces number))
    (readResult pieces number)).memcpy 0 .zeros serverSize, ?_⟩
  rw [iteration, exec, read_piece splits, Option.bind_some, exec, written]
  simp only [Connection.next, communicateClient, if_pos, read_receive inside, joined, exec,
    Option.bind_some, Connection.echoed]

/-- An iteration whose `write` fails leaves the loop with the pieces before it sent back. -/
theorem iteration_fails {stream : List UInt8} {pieces : List Nat} (splits : Splits pieces stream)
    {writes : Nat → Bool} (input buff : Buffer) {number : Nat} (failed : writes number = false) :
    ∃ connection, exec Connection.next (.echoed stream input buff (bytesOf pieces number))
        (iteration pieces writes number) = some connection ∧
      connection.server.pc = .stopped ∧
      connection.toClient = stream.take (bytesOf pieces number) := by
  rw [iteration, exec, read_piece splits, Option.bind_some, exec, failed]
  exact ⟨_, rfl, rfl, rfl⟩

/-- As long as the writes succeed the server goes on: after any number of iterations it is at its
`read`, with exactly the pieces read so far sent back. -/
theorem iterations_echo {stream : List UInt8} {pieces : List Nat} (splits : Splits pieces stream)
    {writes : Nat → Bool} (input buff : Buffer) {count : Nat}
    (written : ∀ number < count, writes number = true) :
    ∃ after, exec Connection.next (.leaving stream input buff) (iterations pieces writes count) =
      some (.echoed stream input after (bytesOf pieces count)) := by
  induction count with
  | zero => exact ⟨buff, rfl⟩
  | succ count ih =>
    obtain ⟨middle, earlier⟩ := ih fun number below => written number (by omega)
    obtain ⟨after, last⟩ := iteration_echo splits input middle (written count (by omega))
    refine ⟨after, ?_⟩
    rw [iterations, exec_append, earlier, Option.bind_some, last]

/-- Once the loop is left no further iteration takes place. -/
theorem iterations_stopped {pieces : List Nat} {writes : Nat → Bool} {start stopped : Connection}
    {count : Nat}
    (run : exec Connection.next start (iterations pieces writes count) = some stopped)
    (left : stopped.server.pc = .stopped) (more : Nat) :
    exec Connection.next start (iterations pieces writes (count + more + 1)) = none := by
  induction more with
  | zero =>
    rw [Nat.add_zero, iterations, exec_append, run, Option.bind_some, iteration, exec]
    simp [Connection.next, communicateClient, left]
  | succ more ih =>
    rw [← Nat.add_assoc, iterations, exec_append, ih]
    rfl

/-- The loop is left in the iteration whose `write` is the first to fail, with the pieces before it
sent back. -/
theorem iterations_fail {stream : List UInt8} {pieces : List Nat} (splits : Splits pieces stream)
    {writes : Nat → Bool} (input buff : Buffer) {number : Nat} (failed : writes number = false)
    (written : ∀ earlier < number, writes earlier = true) :
    ∃ connection, exec Connection.next (.leaving stream input buff)
        (iterations pieces writes (number + 1)) = some connection ∧
      connection.server.pc = .stopped ∧
      connection.toClient = stream.take (bytesOf pieces number) := by
  obtain ⟨middle, earlier⟩ := iterations_echo splits input buff written
  obtain ⟨connection, last, left, sent⟩ := iteration_fails splits input middle failed
  refine ⟨connection, ?_, left, sent⟩
  rw [iterations, exec_append, earlier, Option.bind_some, last]

/-- The loop is left in no other iteration. -/
theorem first_failure {stream : List UInt8} {pieces : List Nat} (splits : Splits pieces stream)
    {writes : Nat → Bool} {input buff : Buffer} {count : Nat} {connection : Connection}
    (run : exec Connection.next (.leaving stream input buff) (iterations pieces writes count) =
      some connection)
    (left : connection.server.pc = .stopped) :
    ∃ number, count = number + 1 ∧ writes number = false ∧
      ∀ earlier < number, writes earlier = true := by
  -- The server would still be at its `read` had every write succeeded.
  have failing : ∃ number, number < count ∧ writes number = false := by
    by_contra none
    push Not at none
    have written : ∀ number < count, writes number = true := fun number below => by
      simpa using none number below
    obtain ⟨after, here⟩ := iterations_echo splits input buff written
    obtain rfl := Option.some.inj (run.symm.trans here)
    simp [Connection.echoed] at left
  have failed := Nat.find_spec failing
  have written : ∀ earlier < Nat.find failing, writes earlier = true := by
    intro earlier below
    have before := Nat.find_min failing below
    have inside : earlier < count := by omega
    simpa [inside] using before
  obtain ⟨stopped, earlier, ended, -⟩ := iterations_fail splits input buff failed.2 written
  refine ⟨Nat.find failing, ?_, failed.2, written⟩
  by_contra later
  have split : count = Nat.find failing + 1 + (count - Nat.find failing - 2) + 1 := by omega
  have refused := iterations_stopped earlier ended (count - Nat.find failing - 2)
  rw [← split, run] at refused
  simp at refused

/-- The condition on the environment: some write fails, and the first one to fail is that of an
iteration whose `read` came after the end of the stream. -/
def FailsAfterEnd (pieces : List Nat) (writes : Nat → Bool) : Prop :=
  ∃ number, pieces.length ≤ number ∧ writes number = false ∧
    ∀ earlier < number, writes earlier = true

/-- `communicate_client` sends the whole stream back and returns exactly when the first `write` to
fail is one of no bytes, after the end of the stream: that the client has left does not end the
loop. -/
theorem echoesAndReturns_iff {stream : List UInt8} {pieces : List Nat}
    (splits : Splits pieces stream) (writes : Nat → Bool) (input buff : Buffer) :
    EchoesAndReturns stream pieces writes input buff ↔ FailsAfterEnd pieces writes := by
  constructor
  · rintro ⟨count, connection, run, left, whole⟩
    obtain ⟨number, rfl, failed, written⟩ := first_failure splits run left
    obtain ⟨stopped, here, -, sent⟩ := iterations_fail splits input buff failed written
    obtain rfl := Option.some.inj (run.symm.trans here)
    have all : bytesOf pieces number = stream.length := by
      have length := congrArg List.length (sent.symm.trans whole)
      have bound := bytesOf_le splits number
      rw [List.length_take] at length
      omega
    exact ⟨number, (bytesOf_eq_iff splits number).mp all, failed, written⟩
  · rintro ⟨number, ended, failed, written⟩
    obtain ⟨connection, run, left, sent⟩ := iterations_fail splits input buff failed written
    have all := (bytesOf_eq_iff splits number).mpr ended
    refine ⟨number + 1, connection, run, left, ?_⟩
    rw [sent, all, List.take_length]

/-- A line of seven bytes read as five and two, with the third write, one of no bytes, failing. -/
theorem echoesAndReturns_brokenPipe :
    Splits [5, 2] [104, 101, 108, 108, 111, 33, 10] ∧
      EchoesAndReturns [104, 101, 108, 108, 111, 33, 10] [5, 2] (· != 2) .zeros .zeros := by
  have splits : Splits [5, 2] [104, 101, 108, 108, 111, 33, 10] := by
    unfold Splits
    decide
  refine ⟨splits, (echoesAndReturns_iff splits _ _ _).mpr ⟨2, by decide, by decide, ?_⟩⟩
  decide

/-- A client sends one byte and ends its stream while it still takes answers: no write fails, and
the loop goes on for ever. -/
theorem halfClosed_never_returns :
    Splits [1] [10] ∧ ¬ EchoesAndReturns [10] [1] (fun _ => true) .zeros .zeros := by
  have splits : Splits [1] [10] := by
    unfold Splits
    decide
  refine ⟨splits, ?_⟩
  rintro ⟨count, connection, run, left, -⟩
  obtain ⟨number, -, failed, -⟩ := first_failure splits run left
  simp at failed

end NsuOs.Echo
