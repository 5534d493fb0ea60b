import NsuOs.Echo.Answers

/-!
# How a conversation with the echo server comes to a standstill

`communicate_server` does not look at what `fgets` returns. At the end of its input the client sends
an empty message, which is not echoed, and goes on reading: it takes the bytes that short reads have
left behind, one round after the other, and then waits for ever, while the server waits for it. As
long as no call fails this is how every conversation ends, and only after the whole input has come
back. Each read takes at least one byte, which bounds the number of calls.
-/
namespace NsuOs.Echo

open NsuOs.Run

/-- The call does not fail. -/
def Label.Succeeds : Label → Bool
  | .clientFgets | .clientPrint => true
  | .clientWrite success | .serverWrite success => success
  | .clientRead got | .serverRead got => got.isSome

/-- Each party waits for the other in `read`. -/
def Connection.Waiting (connection : Connection) : Prop :=
  connection.client.pc = .read ∧ connection.server.pc = .read ∧ connection.toServer = [] ∧
    connection.toClient = []

/-- The line that the client has got from its input and not yet sent. -/
def Client.unsent (client : Client) : List UInt8 :=
  if client.pc = .write then (CString.ofBytes (client.input.read clientSize)).bytes else []

/-- The calls of the client up to its next `read`. -/
def ClientPc.left : ClientPc → Nat
  | .print => 3
  | .fgets => 2
  | .write => 1
  | .read | .stopped => 0

/-- The calls of the server up to its next `read`. -/
def ServerPc.left : ServerPc → Nat
  | .write => 1
  | .read | .stopped => 0

/-- The calls that can still be made: four of the client for each byte it has not received, two of
the server for each byte it has not read. -/
def Connection.left (connection : Connection) : Nat :=
  4 * (connection.client.stdin.length + connection.client.unsent.length +
      connection.toServer.length + connection.server.ret + connection.toClient.length) +
    connection.client.pc.left +
  2 * (connection.client.stdin.length + connection.client.unsent.length +
      connection.toServer.length) + connection.server.pc.left

/-- What holds of a conversation in which no call has failed: both parties are there, the input is
what was sent, is about to be sent and is still unread, and the client reads with an answer owed to
it unless its input has ended. -/
structure Connection.Talking (stdin : List UInt8) (connection : Connection) : Prop where
  /-- No byte was lost on the way. -/
  intact : connection.Intact
  /-- The server has a place to write from. -/
  ready : connection.server.Ready
  /-- The client runs. -/
  client : connection.client.pc ≠ .stopped
  /-- The server runs. -/
  server : connection.server.pc ≠ .stopped
  /-- The input is what was sent, what is about to be sent and what is unread. -/
  whole : connection.client.sent ++ connection.client.unsent ++ connection.client.stdin = stdin
  /-- The client writes at least one byte unless its input has ended. -/
  line : connection.client.pc = .write →
    connection.client.unsent ≠ [] ∨ connection.client.stdin = []
  /-- The client reads only with an answer owed to it, unless its input has ended. -/
  owed : connection.client.pc = .read →
    connection.client.received.length < connection.client.sent.length ∨
      connection.client.stdin = []

/-- The bytes `fgets` takes are the first ones of the input. -/
theorem line_prefix (count : Nat) (stdin : List UInt8) : line count stdin <+: stdin := by
  induction stdin generalizing count with
  | nil => cases count <;> exact List.prefix_rfl
  | cons byte rest ih =>
    cases count with
    | zero => exact List.nil_prefix
    | succ count =>
      unfold line
      split
      · exact (List.cons_prefix_cons).mpr ⟨rfl, List.nil_prefix⟩
      · exact (List.cons_prefix_cons).mpr ⟨rfl, ih count⟩

/-- They are at most as many as asked for. -/
theorem length_line_le (count : Nat) (stdin : List UInt8) : (line count stdin).length ≤ count := by
  induction stdin generalizing count with
  | nil => cases count <;> exact Nat.zero_le _
  | cons byte rest ih =>
    cases count with
    | zero => exact Nat.le_refl 0
    | succ count =>
      unfold line
      split
      · simp
      · simp [ih count]

/-- They are none only at the end of the input. -/
theorem eq_nil_of_line {count : Nat} {stdin : List UInt8} (nothing : line (count + 1) stdin = []) :
    stdin = [] := by
  cases stdin with
  | nil => rfl
  | cons byte rest =>
    unfold line at nothing
    split at nothing
    · cases nothing
    · cases nothing

/-- `memset` and `fgets` leave the first bytes of the input in the buffer, and none only at its
end. -/
theorem fgets_takes {stdin : List UInt8} (input : Buffer) (nulFree : 0 ∉ stdin) :
    ∃ text rest after, stdin = text ++ rest ∧ (text ≠ [] ∨ rest = []) ∧
      fgets (input.memcpy 0 .zeros clientSize) clientSize stdin = (after, rest) ∧
      (CString.ofBytes (after.read clientSize)).bytes = text := by
  obtain ⟨rest, split⟩ := line_prefix (clientSize - 1) stdin
  have short := length_line_le (clientSize - 1) stdin
  generalize taken : line (clientSize - 1) stdin = text at split short
  subst split
  have apart : 0 ∉ text := fun member => nulFree (List.mem_append_left rest member)
  by_cases nonempty : text = []
  · subst nonempty
    have nothing : rest = [] := eq_nil_of_line taken
    have shown : Shows [] (input.memcpy 0 .zeros clientSize) := by
      intro i inside
      simp [Buffer.memcpy, inside, Buffer.zeros]
    refine ⟨[], rest, input.memcpy 0 .zeros clientSize, rfl, .inr nothing, if_pos taken,
      shown.text apart short⟩
  · obtain ⟨after, fetched, shown⟩ := shows_fgets input nonempty taken
    exact ⟨text, rest, after, rfl, .inl nonempty, fetched, shown.text apart short⟩

variable {stdin : List UInt8} {connection after : Connection}

/-- A fresh connection. -/
theorem talking_start (stdin : List UInt8) (input buff : Buffer) :
    (Connection.start stdin input buff).Talking stdin where
  intact := by simp [Connection.Intact, Connection.start, Server.unwritten, Buffer.read]
  ready := fun _ => rfl
  client := by simp [Connection.start]
  server := by simp [Connection.start]
  whole := by simp [Connection.start, Client.unsent]
  line := by simp [Connection.start]
  owed := by simp [Connection.start]

/-- A call of the client that does not fail keeps the conversation going, and is one less that can
still be made. -/
theorem Connection.Talking.client_step {label : Label} (talking : connection.Talking stdin)
    (nulFree : 0 ∉ stdin) (succeeds : label.Succeeds = true) (intact : after.Intact)
    (step : communicateServer connection label = some after) :
    after.Talking stdin ∧ after.left < connection.left := by
  obtain ⟨⟨pc, input, rest, sent, received, printed⟩, server, toServer, toClient⟩ := connection
  obtain ⟨before, ready, client, alive, whole, line, owed⟩ := talking
  simp only at client alive line owed
  cases label with
  | clientFgets =>
    simp only [communicateServer, Option.ite_none_right_eq_some, Option.some.injEq] at step
    obtain ⟨rfl, rfl⟩ := step
    have unread : 0 ∉ rest := by
      intro member
      exact nulFree (whole ▸ List.mem_append_right _ member)
    obtain ⟨text, rest, after, rfl, more, fetched, bytes⟩ := fgets_takes input unread
    simp only [fetched] at intact ⊢
    have unsent : Client.unsent ⟨.write, after, rest, sent, received, printed⟩ = text := bytes
    refine ⟨⟨intact, ready, by simp, alive, ?_, fun _ => ?_, by simp⟩, ?_⟩
    · simpa [Client.unsent, bytes] using whole
    · rw [unsent]
      exact more
    · simp only [Connection.left, unsent, ClientPc.left, List.length_append]
      simp only [Client.unsent, reduceCtorEq, if_false, List.length_nil]
      omega
  | clientWrite success =>
    obtain rfl : success = true := succeeds
    simp only [communicateServer, Option.ite_none_right_eq_some, if_true, Option.some.injEq] at step
    obtain ⟨rfl, rfl⟩ := step
    refine ⟨⟨intact, ready, by simp, alive, ?_, by simp, fun _ => ?_⟩, ?_⟩
    · simpa [Client.unsent] using whole
    · refine (line rfl).imp (fun some' => ?_) id
      have received := congrArg List.length before
      simp only [List.length_append] at received ⊢
      have positive := List.length_pos_iff.mpr some'
      simp only [Client.unsent, if_true] at positive
      omega
    · simp only [Connection.left, ClientPc.left, Client.unsent, reduceCtorEq, if_true, if_false,
        List.length_append, List.length_nil]
      omega
  | clientRead got =>
    cases got with
    | none => cases succeeds
    | some count =>
      simp only [communicateServer, Option.ite_none_right_eq_some, Option.some.injEq] at step
      obtain ⟨⟨rfl, -, inside, some'⟩, rfl⟩ := step
      have positive : 0 < count := some'.resolve_right fun closed =>
        alive (of_decide_eq_true closed.2)
      refine ⟨⟨intact, ready, by simp, alive, ?_, by simp, by simp⟩, ?_⟩
      · simpa [Client.unsent] using whole
      · simp only [Connection.left, ClientPc.left, Client.unsent, reduceCtorEq, if_false,
          List.length_nil, List.length_drop]
        omega
  | clientPrint =>
    simp only [communicateServer, Option.ite_none_right_eq_some, Option.some.injEq] at step
    obtain ⟨rfl, rfl⟩ := step
    refine ⟨⟨intact, ready, by simp, alive, ?_, by simp, by simp⟩, ?_⟩
    · simpa [Client.unsent] using whole
    · simp only [Connection.left, ClientPc.left, Client.unsent, reduceCtorEq, if_false]
      omega
  | serverRead | serverWrite => simp [communicateServer] at step

/-- A call of the server that does not fail keeps the conversation going, and is one less that can
still be made. -/
theorem Connection.Talking.server_step {label : Label} (talking : connection.Talking stdin)
    (succeeds : label.Succeeds = true) (intact : after.Intact) (ready : after.server.Ready)
    (step : communicateClient connection label = some after) :
    after.Talking stdin ∧ after.left < connection.left := by
  obtain ⟨client, ⟨pc, buff, ret⟩, toServer, toClient⟩ := connection
  obtain ⟨-, before, here, alive, whole, line, owed⟩ := talking
  cases label with
  | serverRead got =>
    cases got with
    | none => cases succeeds
    | some count =>
      simp only [communicateClient, Option.ite_none_right_eq_some, Option.some.injEq] at step
      obtain ⟨⟨rfl, -, inside, some'⟩, rfl⟩ := step
      have positive : 0 < count := some'.resolve_right fun closed =>
        here (of_decide_eq_true closed.2)
      have written : ret = 0 := before rfl
      refine ⟨⟨intact, ready, here, by simp, whole, line, owed⟩, ?_⟩
      simp only [Connection.left, ServerPc.left, List.length_drop, written]
      omega
  | serverWrite success =>
    obtain rfl : success = true := succeeds
    simp only [communicateClient, Option.ite_none_right_eq_some, if_true, Option.some.injEq] at step
    obtain ⟨rfl, rfl⟩ := step
    refine ⟨⟨intact, ready, here, by simp, whole, line, owed⟩, ?_⟩
    simp only [Connection.left, ServerPc.left, List.length_append, Buffer.length_read]
    omega
  | clientFgets | clientWrite | clientRead | clientPrint => simp [communicateClient] at step

/-- A call that does not fail keeps the conversation going, and is one less that can still be
made. -/
theorem Connection.Talking.next {label : Label} (talking : connection.Talking stdin)
    (nulFree : 0 ∉ stdin) (succeeds : label.Succeeds = true)
    (step : connection.next label = some after) :
    after.Talking stdin ∧ after.left < connection.left := by
  obtain ⟨intact, ready⟩ := Connection.intact_next ⟨talking.intact, talking.ready⟩ step
  rcases Connection.next_cases step with mine | theirs
  · exact talking.client_step nulFree succeeds intact mine
  · exact talking.server_step succeeds intact ready theirs

/-- A conversation that has not come to a standstill goes on, and if it has the whole input has come
back. -/
theorem Connection.Talking.progress (talking : connection.Talking stdin) :
    (∃ label, label.Succeeds = true ∧ connection.next label ≠ none) ∨
      connection.Waiting ∧ connection.client.stdin = [] ∧ connection.client.received = stdin := by
  obtain ⟨⟨pc, input, rest, sent, received, printed⟩, ⟨place, buff, ret⟩, toServer, toClient⟩ :=
    connection
  obtain ⟨intact, ready, client, server, whole, -, owed⟩ := talking
  cases pc with
  | fgets => exact .inl ⟨.clientFgets, rfl, by simp [Connection.next, communicateServer]⟩
  | write => exact .inl ⟨.clientWrite true, rfl, by simp [Connection.next, communicateServer]⟩
  | print => exact .inl ⟨.clientPrint, rfl, by simp [Connection.next, communicateServer]⟩
  | stopped => exact absurd rfl client
  | read =>
    cases toClient with
    | cons byte more =>
      have readable : Readable (byte :: more) clientSize (place = .stopped) 1 :=
        ⟨by decide, by simp, .inl Nat.zero_lt_one⟩
      exact .inl ⟨.clientRead (some 1), rfl, by simp [Connection.next, communicateServer, readable]⟩
    | nil =>
      cases place with
      | write => exact .inl ⟨.serverWrite true, rfl, by simp [Connection.next, communicateClient]⟩
      | stopped => exact absurd rfl server
      | read =>
        cases toServer with
        | cons byte more =>
          have readable : Readable (byte :: more) serverSize false 1 :=
            ⟨by decide, by simp, .inl Nat.zero_lt_one⟩
          exact .inl ⟨.serverRead (some 1), rfl,
            by simp [Connection.next, communicateClient, readable]⟩
        | nil =>
          have written : ret = 0 := ready rfl
          have returned : received = sent := by
            simpa [Connection.Intact, Server.unwritten, written, Buffer.read] using intact
          have ended : rest = [] := by
            refine (owed rfl).resolve_left ?_
            simp [returned]
          have all : sent = stdin := by simpa [Client.unsent, ended] using whole
          exact .inr ⟨⟨rfl, rfl, rfl, rfl⟩, ended, returned.trans all⟩

/-- As long as no call fails, a conversation about any input without a terminator takes a bounded
number of calls, in whatever order the parties make them and however the bytes are split; neither
party ever leaves its loop, and the only state in which no call can be made without failing is that
each waits for the other, after the whole input has come back to the client. -/
theorem conversation_stalls (nulFree : 0 ∉ stdin) {input buff : Buffer} {labels : List Label}
    (run : exec Connection.next (.start stdin input buff) labels = some connection)
    (succeed : ∀ label ∈ labels, label.Succeeds = true) :
    labels.length ≤ 6 * stdin.length + 2 ∧
      connection.client.pc ≠ .stopped ∧ connection.server.pc ≠ .stopped ∧
      ((∀ label, label.Succeeds = true → connection.next label = none) →
        connection.Waiting ∧ connection.client.stdin = [] ∧
          connection.client.received = stdin) := by
  have talks : connection.Talking stdin ∧ labels.length + connection.left ≤
      (Connection.start stdin input buff).left := by
    revert succeed
    refine exec_induct (motive := fun labels connection =>
      (∀ label ∈ labels, label.Succeeds = true) → connection.Talking stdin ∧
        labels.length + connection.left ≤ (Connection.start stdin input buff).left) ?_ ?_ run
    · intro _
      exact ⟨talking_start stdin input buff, by simp⟩
    intro labels before label after _ earlier step succeed
    obtain ⟨talking, bound⟩ := earlier fun other member =>
      succeed other (List.mem_append_left _ member)
    obtain ⟨onward, less⟩ := talking.next nulFree (succeed label (by simp)) step
    refine ⟨onward, ?_⟩
    rw [List.length_append, List.length_singleton]
    omega
  obtain ⟨talking, bound⟩ := talks
  have begins : (Connection.start stdin input buff).left = 6 * stdin.length + 2 := by
    simp only [Connection.left, Connection.start, Client.unsent, ClientPc.left, ServerPc.left,
      reduceCtorEq, if_false, List.length_nil]
    omega
  refine ⟨by omega, talking.client, talking.server, fun stuck => ?_⟩
  refine talking.progress.resolve_left ?_
  rintro ⟨label, succeeds, enabled⟩
  exact enabled (stuck label succeeds)

/-- A conversation about two lines in which the first answer comes in two pieces. -/
def piecemeal : List Label :=
  [.clientFgets, .clientWrite true, .serverRead (some 3), .serverWrite true, .clientRead (some 1),
    .clientPrint, .clientFgets, .clientWrite true, .serverRead (some 2), .serverWrite true,
    .clientRead (some 3), .clientPrint, .clientFgets, .clientWrite true, .clientRead (some 1),
    .clientPrint, .clientFgets, .clientWrite true]

/-- After two more rounds with nothing to send the client waits for ever. -/
theorem conversation_stalls_piecemeal :
    ∃ connection, exec Connection.next (.start [97, 98, 10, 99, 10] .zeros .zeros) piecemeal =
        some connection ∧ connection.client.pc = .read ∧
      connection.client.received = [97, 98, 10, 99, 10] ∧
      piecemeal.length ≤ 6 * [97, 98, 10, 99, 10].length + 2 := by
  have outcome : (exec Connection.next (.start [97, 98, 10, 99, 10] .zeros .zeros) piecemeal).map
      (fun connection => (connection.client.pc, connection.client.received)) =
        some (.read, [97, 98, 10, 99, 10]) := by
    decide +kernel
  obtain ⟨connection, run, facts⟩ := Option.map_eq_some_iff.mp outcome
  obtain ⟨place, received⟩ := Prod.mk.inj facts
  exact ⟨connection, run, place, received, (conversation_stalls (by decide) run (by decide)).1⟩

end NsuOs.Echo
