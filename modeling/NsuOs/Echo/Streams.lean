import NsuOs.Base.Run
import NsuOs.Base.CString

/-!
# The echo client and server

`client.c` and the child process of `server.c` share a stream socket: one byte stream in each
direction. The client sends one line and reads once; the server reads at most five bytes and
writes them back. A `read` returns some of the bytes that are there, in order, and blocks when
there are none, unless the other side has closed the socket; a `write` appends all its bytes or
fails. Every call may fail, which ends the loop of its caller.
-/
namespace NsuOs.Echo

open NsuOs.Run

/-- `SIZE_BUFFER` of `client.c`. -/
def clientSize : Nat := 128

/-- `SIZE_BUFFER` of `server.c`. -/
def serverSize : Nat := 5

/-- The bytes `fgets` takes: up to and including a newline, at most the given number. -/
def line : Nat → List UInt8 → List UInt8
  | 0, _ => []
  | _ + 1, [] => []
  | count + 1, byte :: rest => if byte = 10 then [byte] else byte :: line count rest

/-- `fgets(buffer, size, stdin)`: the line and a terminator, or nothing at the end of the input. -/
def fgets (buffer : Buffer) (size : Nat) (stdin : List UInt8) : Buffer × List UInt8 :=
  let taken := line (size - 1) stdin
  if taken = [] then (buffer, stdin)
  else (buffer.memcpy 0 (.ofBytes (taken ++ [0])) (taken.length + 1), stdin.drop taken.length)

/-- Where the client is in the loop of `communicate_server`. -/
inductive ClientPc
  /-- Before `memset` and `fgets`. -/
  | fgets
  /-- At the `write` of the line. -/
  | write
  /-- At the `read` of the response. -/
  | read
  /-- At the `printf` of the response. -/
  | print
  /-- The loop was left and the socket closed. -/
  | stopped
  deriving DecidableEq

/-- Where the server is in the loop of `communicate_client`. -/
inductive ServerPc
  /-- At the `read`. -/
  | read
  /-- At the `write` of what was read. -/
  | write
  /-- The loop was left and the socket closed. -/
  | stopped
  deriving DecidableEq

/-- The client: its place, its buffer, the input not yet read, and what it has sent, received
and printed. -/
structure Client where
  /-- The call it is about to make. -/
  pc : ClientPc
  /-- Its buffer. -/
  input : Buffer
  /-- The input not yet taken. -/
  stdin : List UInt8
  /-- The bytes sent to the server. -/
  sent : List UInt8
  /-- The bytes received from the server. -/
  received : List UInt8
  /-- The texts printed, in order. -/
  printed : List CString

/-- The server: its place, its buffer, and how many of the bytes it read are not yet written. -/
structure Server where
  /-- The call it is about to make. -/
  pc : ServerPc
  /-- Its buffer. -/
  buff : Buffer
  /-- How many of the bytes it read are not yet written. -/
  ret : Nat

/-- The two parties and the bytes in flight between them. -/
structure Connection where
  /-- The client. -/
  client : Client
  /-- The child that serves it. -/
  server : Server
  /-- The bytes on their way to the server. -/
  toServer : List UInt8
  /-- The bytes on their way to the client. -/
  toClient : List UInt8

/-- One call of one party, with its result: the number of bytes read or `none` for `ERROR`, and
whether a write succeeded. -/
inductive Label
  /-- The client takes a line. -/
  | clientFgets
  /-- The client writes it. -/
  | clientWrite (success : Bool)
  /-- The client reads. -/
  | clientRead (got : Option Nat)
  /-- The client prints its buffer. -/
  | clientPrint
  /-- The server reads. -/
  | serverRead (got : Option Nat)
  /-- The server writes what it read. -/
  | serverWrite (success : Bool)
  deriving DecidableEq

/-- What `read` may return: some of the bytes in the stream up to the size of the buffer, or zero
when there are none and the other side has closed. -/
def Readable (stream : List UInt8) (size : Nat) (closed : Bool) (count : Nat) : Prop :=
  count ≤ size ∧ count ≤ stream.length ∧ (0 < count ∨ stream = [] ∧ closed = true)

instance (stream : List UInt8) (size : Nat) (closed : Bool) (count : Nat) :
    Decidable (Readable stream size closed count) :=
  inferInstanceAs (Decidable (_ ∧ _ ∧ (_ ∨ _ ∧ _)))

/-- `read` into the start of a buffer. -/
def receive (buffer : Buffer) (stream : List UInt8) (count : Nat) : Buffer :=
  buffer.memcpy 0 (.ofBytes (stream.take count)) count

/-- One step of `communicate_server`. -/
def communicateServer (connection : Connection) : Label → Option Connection
  | .clientFgets =>
    let client := connection.client
    if client.pc = .fgets then
      let (input, stdin) := fgets (client.input.memcpy 0 .zeros clientSize) clientSize client.stdin
      some { connection with
        client := { client with pc := .write, input := input, stdin := stdin } }
    else none
  | .clientWrite success =>
    let client := connection.client
    if client.pc = .write then
      let bytes := (CString.ofBytes (client.input.read clientSize)).bytes
      if success then
        some { connection with
          client := { client with pc := .read, sent := client.sent ++ bytes }
          toServer := connection.toServer ++ bytes }
      else some { connection with client := { client with pc := .stopped } }
    else none
  | .clientRead (some count) =>
    let client := connection.client
    if client.pc = .read ∧
        Readable connection.toClient clientSize (connection.server.pc = .stopped) count then
      some { connection with
        client := { client with
          pc := .print
          input := receive client.input connection.toClient count
          received := client.received ++ connection.toClient.take count }
        toClient := connection.toClient.drop count }
    else none
  | .clientRead none =>
    if connection.client.pc = .read then
      some { connection with client := { connection.client with pc := .stopped } }
    else none
  | .clientPrint =>
    let client := connection.client
    if client.pc = .print then
      let text := CString.ofBytes (client.input.read clientSize)
      some { connection with
        client := { client with pc := .fgets, printed := client.printed ++ [text] } }
    else none
  | _ => none

/-- One step of `communicate_client`. -/
def communicateClient (connection : Connection) : Label → Option Connection
  | .serverRead (some count) =>
    let server := connection.server
    if server.pc = .read ∧
        Readable connection.toServer serverSize (connection.client.pc = .stopped) count then
      some { connection with
        server := ⟨.write, receive server.buff connection.toServer count, count⟩
        toServer := connection.toServer.drop count }
    else none
  | .serverRead none =>
    if connection.server.pc = .read then
      some { connection with server := { connection.server with pc := .stopped } }
    else none
  | .serverWrite success =>
    let server := connection.server
    if server.pc = .write then
      if success then
        some { connection with
          server := ⟨.read, server.buff.memcpy 0 .zeros serverSize, 0⟩
          toClient := connection.toClient ++ server.buff.read server.ret }
      else some { connection with server := { server with pc := .stopped } }
    else none
  | _ => none

/-- One step of either party. -/
def Connection.next (connection : Connection) (label : Label) : Option Connection :=
  match label with
  | .clientFgets | .clientWrite _ | .clientRead _ | .clientPrint =>
    communicateServer connection label
  | .serverRead _ | .serverWrite _ => communicateClient connection label

/-- A fresh connection: the whole input is unread, the buffers hold anything. -/
def Connection.start (stdin : List UInt8) (input buff : Buffer) : Connection :=
  ⟨⟨.fgets, input, stdin, [], [], []⟩, ⟨.read, buff, 0⟩, [], []⟩

/-- The bytes in the server's buffer that are not yet written. -/
def Server.unwritten (server : Server) : List UInt8 := server.buff.read server.ret

/-- Received, in flight to the client, in the server's buffer and in flight to the server: in this
order the bytes make up what was sent. -/
def Connection.Intact (connection : Connection) : Prop :=
  connection.client.received ++ connection.toClient ++ connection.server.unwritten ++
    connection.toServer = connection.client.sent

/-- What a `read` put into a buffer reads back as the beginning of the stream. -/
theorem read_receive {buffer : Buffer} {stream : List UInt8} {count : Nat}
    (inside : count ≤ stream.length) :
    (receive buffer stream count).read count = stream.take count := by
  have taken : (stream.take count).length = count := List.length_take_of_le inside
  have copied := Buffer.read_memcpy buffer 0 (stream.take count)
  rw [taken, Nat.zero_add] at copied
  exact copied

/-- Before a `read` the server has nothing left to write. -/
def Server.Ready (server : Server) : Prop := server.pc = .read → server.ret = 0

/-- A step of the client keeps the bytes in order. -/
theorem communicateServer_intact {connection after : Connection} {label : Label}
    (intact : connection.Intact) (step : communicateServer connection label = some after) :
    after.Intact := by
  unfold Connection.Intact at *
  cases label with
  | clientFgets =>
    simp only [communicateServer, Option.ite_none_right_eq_some, Option.some.injEq] at step
    obtain ⟨-, rfl⟩ := step
    exact intact
  | clientWrite success =>
    simp only [communicateServer, Option.ite_none_right_eq_some] at step
    obtain ⟨-, written⟩ := step
    cases success with
    | true =>
      obtain rfl := Option.some.inj written
      simp only [← intact, List.append_assoc]
    | false =>
      obtain rfl := Option.some.inj written
      exact intact
  | clientRead got =>
    cases got with
    | none =>
      simp only [communicateServer, Option.ite_none_right_eq_some, Option.some.injEq] at step
      obtain ⟨-, rfl⟩ := step
      exact intact
    | some count =>
      simp only [communicateServer, Option.ite_none_right_eq_some, Option.some.injEq] at step
      obtain ⟨-, rfl⟩ := step
      have whole : connection.toClient.take count ++ connection.toClient.drop count =
        connection.toClient := List.take_append_drop count connection.toClient
      simp only [← intact, List.append_assoc]
      rw [← List.append_assoc (connection.toClient.take count), whole]
  | clientPrint =>
    simp only [communicateServer, Option.ite_none_right_eq_some, Option.some.injEq] at step
    obtain ⟨-, rfl⟩ := step
    exact intact
  | serverRead got => simp [communicateServer] at step
  | serverWrite success => simp [communicateServer] at step

/-- A step of the client does not touch the server. -/
theorem communicateServer_server {connection after : Connection} {label : Label}
    (step : communicateServer connection label = some after) :
    after.server = connection.server := by
  cases label with
  | clientFgets =>
    simp only [communicateServer, Option.ite_none_right_eq_some, Option.some.injEq] at step
    exact step.2 ▸ rfl
  | clientWrite success =>
    simp only [communicateServer, Option.ite_none_right_eq_some] at step
    cases success with
    | true => exact Option.some.inj step.2 ▸ rfl
    | false => exact Option.some.inj step.2 ▸ rfl
  | clientRead got =>
    cases got with
    | none =>
      simp only [communicateServer, Option.ite_none_right_eq_some, Option.some.injEq] at step
      exact step.2 ▸ rfl
    | some count =>
      simp only [communicateServer, Option.ite_none_right_eq_some, Option.some.injEq] at step
      exact step.2 ▸ rfl
  | clientPrint =>
    simp only [communicateServer, Option.ite_none_right_eq_some, Option.some.injEq] at step
    exact step.2 ▸ rfl
  | serverRead got => simp [communicateServer] at step
  | serverWrite success => simp [communicateServer] at step

/-- A step of the server keeps the bytes in order, and it reads only with nothing left to write. -/
theorem communicateClient_intact {connection after : Connection} {label : Label}
    (intact : connection.Intact) (ready : connection.server.Ready)
    (step : communicateClient connection label = some after) :
    after.Intact ∧ after.server.Ready := by
  unfold Connection.Intact at *
  cases label with
  | serverRead got =>
    cases got with
    | none =>
      simp only [communicateClient, Option.ite_none_right_eq_some, Option.some.injEq] at step
      obtain ⟨-, rfl⟩ := step
      exact ⟨intact, by simp [Server.Ready]⟩
    | some count =>
      simp only [communicateClient, Option.ite_none_right_eq_some, Option.some.injEq] at step
      obtain ⟨⟨reading, -, inside, -⟩, rfl⟩ := step
      have empty : connection.server.unwritten = [] := by
        simp [Server.unwritten, ready reading, Buffer.read]
      have whole : connection.toServer.take count ++ connection.toServer.drop count =
        connection.toServer := List.take_append_drop count connection.toServer
      refine ⟨?_, by simp [Server.Ready]⟩
      simp only [Server.unwritten, read_receive inside, List.append_assoc, whole]
      simpa [empty] using intact
  | serverWrite success =>
    simp only [communicateClient, Option.ite_none_right_eq_some] at step
    obtain ⟨-, written⟩ := step
    cases success with
    | true =>
      obtain rfl := Option.some.inj written
      have nothing : (connection.server.buff.memcpy 0 .zeros serverSize).read 0 = [] := rfl
      refine ⟨?_, fun _ => rfl⟩
      simp only [Server.unwritten, nothing, List.append_nil]
      simpa [Server.unwritten] using intact
    | false =>
      obtain rfl := Option.some.inj written
      exact ⟨intact, by simp [Server.Ready]⟩
  | clientFgets => simp [communicateClient] at step
  | clientWrite success => simp [communicateClient] at step
  | clientRead got => simp [communicateClient] at step
  | clientPrint => simp [communicateClient] at step

/-- A step is a step of the client or a step of the server. -/
theorem Connection.next_cases {connection after : Connection} {label : Label}
    (step : connection.next label = some after) :
    communicateServer connection label = some after ∨
      communicateClient connection label = some after := by
  cases label with
  | serverRead | serverWrite => exact .inr step
  | clientFgets | clientWrite | clientRead | clientPrint => exact .inl step

/-- One step of either party keeps the bytes in order. -/
theorem Connection.intact_next {connection after : Connection} {label : Label}
    (held : connection.Intact ∧ connection.server.Ready)
    (step : connection.next label = some after) : after.Intact ∧ after.server.Ready := by
  obtain ⟨intact, ready⟩ := held
  rcases next_cases step with mine | theirs
  · have server := communicateServer_server mine
    exact ⟨communicateServer_intact intact mine, server ▸ ready⟩
  · exact communicateClient_intact intact ready theirs

/-- Along every run the bytes received by the client, those in flight to it, those in the server's
buffer and those in flight to the server are, in this order, the bytes the client has sent; what
it has received is therefore a beginning of what it sent. -/
theorem echo_intact {stdin : List UInt8} {input buff : Buffer} {labels : List Label}
    {connection : Connection}
    (run : exec Connection.next (.start stdin input buff) labels = some connection) :
    connection.client.received ++ connection.toClient ++ connection.server.unwritten ++
        connection.toServer = connection.client.sent ∧
      connection.client.received <+: connection.client.sent := by
  have initial : (Connection.start stdin input buff).Intact ∧
      (Connection.start stdin input buff).server.Ready := by
    simp [Connection.Intact, Connection.start, Server.unwritten, Server.Ready, Buffer.read]
  have held := exec_invariant (fun _ _ _ => Connection.intact_next) initial run
  have intact : connection.client.received ++ connection.toClient ++
      connection.server.unwritten ++ connection.toServer = connection.client.sent := held.1
  refine ⟨intact, connection.toClient ++ connection.server.unwritten ++ connection.toServer, ?_⟩
  rw [← intact]
  simp only [List.append_assoc]

/-- Two lines of which the first is answered in part when the second is sent. -/
def twoLines : List Label :=
  [.clientFgets, .clientWrite true, .serverRead (some 5), .serverWrite true,
    .serverRead (some 2), .clientRead (some 3), .clientPrint, .clientFgets, .clientWrite true,
    .serverWrite true, .serverRead (some 3)]

/-- The bytes of both lines are on their way, in order. -/
theorem echo_intact_twoLines :
    ∃ connection, exec Connection.next
        (.start [104, 101, 108, 108, 111, 33, 10, 111, 107, 10] .zeros .zeros) twoLines =
          some connection ∧
      connection.client.received = [104, 101, 108] ∧
      [104, 101, 108] <+: connection.client.sent := by
  have outcome : (exec Connection.next
      (.start [104, 101, 108, 108, 111, 33, 10, 111, 107, 10] .zeros .zeros) twoLines).map
        (·.client.received) = some [104, 101, 108] := by
    decide +kernel
  obtain ⟨connection, run, received⟩ := Option.map_eq_some_iff.mp outcome
  have intact := (echo_intact run).2
  rw [received] at intact
  exact ⟨connection, run, received, intact⟩

end NsuOs.Echo
