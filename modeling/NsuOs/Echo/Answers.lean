import NsuOs.Echo.Streams

/-!
# Whether the client prints the answer to its own line

The client reads once for each line, and the buffer it reads into still holds the line it sent. A
first short read is therefore masked, but the bytes it leaves behind are read in the next round.
When every line but the last has a single byte no read can leave a byte behind and each text printed
is the line before it; when some earlier line is longer there is a run in which the next text is
wrong.
-/
namespace NsuOs.Echo

open NsuOs.Run

/-- Lines as they are typed: not empty, without a terminator, at most as long as `fgets` takes, and
with a newline at the end, which only the last one may lack, and nowhere else. -/
structure Lines (lines : List (List UInt8)) : Prop where
  /-- No line is empty. -/
  nonempty : ∀ text ∈ lines, text ≠ []
  /-- No line has a terminator inside. -/
  nulFree : ∀ text ∈ lines, 0 ∉ text
  /-- `fgets` takes each line at once. -/
  short : ∀ text ∈ lines, text.length ≤ 127
  /-- A newline is only at the end of a line. -/
  inner : ∀ text ∈ lines, 10 ∉ text.dropLast
  /-- Every line but the last ends with a newline. -/
  ended : ∀ text ∈ lines.dropLast, text.getLast? = some 10

/-- The texts printed so far are the lines they answer. -/
def Connection.Answers (lines : List (List UInt8)) (connection : Connection) : Prop :=
  ∀ (k : Nat) (line : List UInt8) (text : CString), lines[k]? = some line →
    connection.client.printed[k]? = some text → text.bytes = line

/-- `fgets` takes a whole line. -/
theorem line_append {text rest : List UInt8} {count : Nat} (short : text.length ≤ count)
    (nonempty : text ≠ []) (inner : 10 ∉ text.dropLast)
    (ended : text.getLast? = some 10 ∨ rest = []) : line count (text ++ rest) = text := by
  induction text generalizing count with
  | nil => exact absurd rfl nonempty
  | cons byte text ih =>
    obtain ⟨count, rfl⟩ : ∃ less, count = less + 1 := ⟨count - 1, by simp at short; omega⟩
    rw [List.cons_append, line]
    cases text with
    | nil =>
      by_cases newline : byte = 10
      · rw [if_pos newline]
      · have nothing : rest = [] := ended.resolve_left (by simpa using newline)
        rw [if_neg newline, nothing]
        cases count with
        | zero => rfl
        | succ count => rfl
    | cons second text =>
      have other : byte ≠ 10 := by
        rintro rfl
        exact inner (by simp)
      have later : 10 ∉ (second :: text).dropLast := by
        intro member
        exact inner (by simp [member])
      rw [if_neg other, ih (by simpa using short) (by simp) later (by simpa using ended)]

/-- The first line of those that are left is the next one `fgets` takes. -/
theorem Lines.line_eq {lines front back : List (List UInt8)} {text : List UInt8}
    (formed : Lines lines) (split : lines = front ++ text :: back) :
    line (clientSize - 1) (text ++ back.flatten) = text := by
  have member : text ∈ lines := by simp [split]
  apply line_append (formed.short text member) (formed.nonempty text member)
    (formed.inner text member)
  cases back with
  | nil => exact .inr rfl
  | cons next back =>
    left
    apply formed.ended
    rw [split, List.dropLast_append_of_ne_nil (by simp)]
    simp

/-- A buffer of the client holds a line and zeros behind it. -/
def Shows (text : List UInt8) (input : Buffer) : Prop := ∀ i < clientSize, input i = text.getD i 0

/-- The text in a buffer that holds a line is that line. -/
theorem Shows.text {text : List UInt8} {input : Buffer} (shown : Shows text input)
    (nulFree : 0 ∉ text) (short : text.length ≤ 127) :
    (CString.ofBytes (input.read clientSize)).bytes = text := by
  have filled : input.read clientSize = text ++ List.replicate (clientSize - text.length) 0 := by
    apply List.ext_getElem
    · have inside : text.length ≤ clientSize := short.trans (by decide)
      simp only [Buffer.length_read, List.length_append, List.length_replicate]
      omega
    · intro i inside _
      rw [Buffer.length_read] at inside
      by_cases early : i < text.length
      · simp [Buffer.read, shown i inside, early]
      · simp [Buffer.read, shown i inside, List.getElem_append, early]
  have more : clientSize - text.length = clientSize - text.length - 1 + 1 := by
    have size : clientSize = 128 := rfl
    omega
  have apart : ∀ byte ∈ text, (byte != 0) = true := by
    intro byte member
    rw [bne_iff_ne]
    rintro rfl
    exact nulFree member
  change (input.read clientSize).takeWhile (· != 0) = text
  rw [filled, List.takeWhile_append_of_pos apart, more, List.replicate_succ]
  simp

/-- `memset` and `fgets` leave the line in the buffer. -/
theorem shows_fgets {text rest : List UInt8} (input : Buffer) (nonempty : text ≠ [])
    (taken : line (clientSize - 1) (text ++ rest) = text) :
    ∃ after, fgets (input.memcpy 0 .zeros clientSize) clientSize (text ++ rest) = (after, rest) ∧
      Shows text after := by
  refine ⟨(input.memcpy 0 .zeros clientSize).memcpy 0 (.ofBytes (text ++ [0])) (text.length + 1),
    ?_, ?_⟩
  · simp only [fgets, taken, nonempty, if_false, List.drop_left]
  · intro i inside
    by_cases early : i < text.length + 1
    · by_cases within : i < text.length
      · simp [Buffer.memcpy, Buffer.ofBytes, early, within]
      · have last : i = text.length := by omega
        simp [Buffer.memcpy, Buffer.ofBytes, last]
    · have beyond : text.length ≤ i := by omega
      simp [Buffer.memcpy, early, inside, Buffer.zeros, beyond]

/-- Reading the beginning of the line again changes nothing. -/
theorem Shows.receive {text stream : List UInt8} {input : Buffer} {count : Nat}
    (shown : Shows text input) (early : stream <+: text) (inside : count ≤ stream.length) :
    Shows text (receive input stream count) := by
  obtain ⟨rest, rfl⟩ := early
  intro i within
  by_cases copied : i < count
  · have present : i < stream.length := by omega
    simp [Echo.receive, Buffer.memcpy, Buffer.ofBytes, copied, present,
      List.getElem?_append_left present]
  · simp only [Echo.receive, Buffer.memcpy, Nat.zero_le, true_and, Nat.zero_add, copied, if_false]
    exact shown i within

/-- Nothing is on its way to the client that it did not ask for after these many lines: it has
received all of them, or the server has closed and nothing more will come. -/
def Connection.Quiet (lines : List (List UInt8)) (k : Nat) (connection : Connection) : Prop :=
  connection.client.received = (lines.take k).flatten ∨
    connection.server.pc = .stopped ∧ connection.toClient = []

/-- Whether the line of a round is taken from the input. -/
def ClientPc.fetched : ClientPc → Nat
  | .fgets => 0
  | .write | .read | .print | .stopped => 1

/-- Whether the line of a round is sent. -/
def ClientPc.posted : ClientPc → Nat
  | .fgets | .write => 0
  | .read | .print | .stopped => 1

/-- What holds in the round of a line. -/
structure Connection.Round (lines : List (List UInt8)) (k : Nat) (text : List UInt8)
    (connection : Connection) : Prop where
  /-- The lines still to be typed are those behind this one, and this one before `fgets`. -/
  stdin : connection.client.stdin = (lines.drop (k + connection.client.pc.fetched)).flatten
  /-- The lines sent are those before this one, and this one after `write`. -/
  sent : connection.client.sent = (lines.take (k + connection.client.pc.posted)).flatten
  /-- Until the text is printed no earlier answer is on its way. -/
  quiet : connection.client.pc ≠ .print → connection.Quiet lines k
  /-- While it is printed none is, unless this is the last line. -/
  settled : connection.client.pc = .print → k + 1 < lines.length → connection.Quiet lines (k + 1)
  /-- From `fgets` on the buffer shows the line. -/
  shown : connection.client.pc ≠ .fgets → Shows text connection.client.input

/-- The assertion on a connection whose lines but the last have one byte: the texts printed are
right, and so is the round the client is in. -/
structure Connection.Prompt (lines : List (List UInt8)) (connection : Connection) : Prop where
  /-- No byte was lost on the way. -/
  intact : connection.Intact
  /-- The texts printed so far are right. -/
  answers : connection.Answers lines
  /-- While the client runs it is in the round of the line it has not printed yet. -/
  round : connection.client.pc ≠ .stopped →
    ∀ text, lines[connection.client.printed.length]? = some text →
      connection.Round lines connection.client.printed.length text

section Prompt

variable {lines : List (List UInt8)} {connection after : Connection}

/-- The lines up to and including one. -/
theorem flatten_take_succ {k : Nat} {text : List UInt8} (here : lines[k]? = some text) :
    (lines.take (k + 1)).flatten = (lines.take k).flatten ++ text := by
  rw [List.take_add_one, here]
  simp

/-- The lines from one on. -/
theorem flatten_drop {k : Nat} {text : List UInt8} (here : lines[k]? = some text) :
    (lines.drop k).flatten = text ++ (lines.drop (k + 1)).flatten := by
  obtain ⟨inside, rfl⟩ := List.getElem?_eq_some_iff.mp here
  rw [List.drop_eq_getElem_cons inside, List.flatten_cons]

/-- A line stands between those before and those behind it. -/
theorem split_at {k : Nat} {text : List UInt8} (here : lines[k]? = some text) :
    lines = lines.take k ++ text :: lines.drop (k + 1) := by
  obtain ⟨inside, rfl⟩ := List.getElem?_eq_some_iff.mp here
  rw [← List.drop_eq_getElem_cons inside, List.take_append_drop]

/-- While the client waits for an answer only bytes of its line can arrive. -/
theorem Connection.Quiet.prefix_line {k : Nat} {text : List UInt8}
    (quiet : connection.Quiet lines k) (here : lines[k]? = some text)
    (intact : connection.Intact) (sent : connection.client.sent = (lines.take (k + 1)).flatten) :
    connection.toClient <+: text := by
  rcases quiet with received | ⟨-, nothing⟩
  · unfold Connection.Intact at intact
    rw [sent, received, flatten_take_succ here, List.append_assoc, List.append_assoc] at intact
    have rest := List.append_cancel_left intact
    exact ⟨_, rest⟩
  · rw [nothing]
    exact List.nil_prefix

/-- A step of the server does not touch the client, and a server that has closed takes none. -/
theorem communicateClient_client {label : Label}
    (step : communicateClient connection label = some after) :
    after.client = connection.client ∧ connection.server.pc ≠ .stopped := by
  cases label with
  | serverRead got =>
    cases got with
    | none =>
      simp only [communicateClient, Option.ite_none_right_eq_some, Option.some.injEq] at step
      obtain ⟨place, rfl⟩ := step
      exact ⟨rfl, by simp [place]⟩
    | some count =>
      simp only [communicateClient, Option.ite_none_right_eq_some, Option.some.injEq] at step
      obtain ⟨⟨place, -⟩, rfl⟩ := step
      exact ⟨rfl, by simp [place]⟩
  | serverWrite success =>
    simp only [communicateClient, Option.ite_none_right_eq_some] at step
    obtain ⟨place, written⟩ := step
    cases success with
    | true =>
      obtain rfl := Option.some.inj written
      exact ⟨rfl, by simp [place]⟩
    | false =>
      obtain rfl := Option.some.inj written
      exact ⟨rfl, by simp [place]⟩
  | clientFgets => simp [communicateClient] at step
  | clientWrite success => simp [communicateClient] at step
  | clientRead got => simp [communicateClient] at step
  | clientPrint => simp [communicateClient] at step

/-- A step of the server keeps the assertion. -/
theorem Connection.Prompt.server (prompt : connection.Prompt lines) (intact : after.Intact)
    (client : after.client = connection.client)
    (stopped : connection.server.pc ≠ .stopped) : after.Prompt lines := by
  refine ⟨intact, ?_, ?_⟩
  · unfold Connection.Answers
    rw [client]
    exact prompt.answers
  · have quiet : ∀ k, connection.Quiet lines k → after.Quiet lines k := by
      intro k quiet
      rcases quiet with received | ⟨closed, -⟩
      · left
        rw [client, received]
      · exact absurd closed stopped
    intro active text here
    rw [client] at active here
    have round := prompt.round active text here
    constructor
    · rw [client]
      exact round.stdin
    · rw [client]
      exact round.sent
    · rw [client]
      exact fun place => quiet _ (round.quiet place)
    · rw [client]
      exact fun place more => quiet _ (round.settled place more)
    · rw [client]
      exact round.shown

/-- A client that has stopped prints nothing more. -/
theorem Connection.Prompt.stops (prompt : connection.Prompt lines) (intact : after.Intact)
    (printed : after.client.printed = connection.client.printed)
    (stopped : after.client.pc = .stopped) : after.Prompt lines := by
  refine ⟨intact, ?_, fun active => absurd stopped active⟩
  unfold Connection.Answers
  rw [printed]
  exact prompt.answers

/-- A line with another one behind it has one byte. -/
theorem length_of_single (single : ∀ text ∈ lines.dropLast, text.length = 1) {k : Nat}
    {text : List UInt8} (here : lines[k]? = some text) (more : k + 1 < lines.length) :
    text.length = 1 := by
  apply single
  apply List.mem_of_getElem?
  have inside : k < lines.length - 1 := by omega
  rw [List.getElem?_dropLast, if_pos inside]
  exact here

/-- A `read` in the round of a line of one byte takes the line, or the server has closed. -/
theorem Connection.Quiet.reads {k count : Nat} {text : List UInt8}
    (quiet : connection.Quiet lines k) (here : lines[k]? = some text)
    (early : connection.toClient <+: text) (line : text.length = 1)
    (readable : Readable connection.toClient clientSize (connection.server.pc = .stopped) count) :
    connection.client.received ++ connection.toClient.take count = (lines.take (k + 1)).flatten ∨
      connection.server.pc = .stopped ∧ connection.toClient.drop count = [] := by
  obtain ⟨-, inside, some⟩ := readable
  rcases quiet with received | ⟨closed, nothing⟩
  · rcases some with positive | ⟨nothing, closed⟩
    · left
      have whole : connection.toClient = text := by
        apply early.eq_of_length
        have bound := early.length_le
        omega
      have all : count = connection.toClient.length := by
        rw [whole]
        rw [whole] at inside
        omega
      rw [flatten_take_succ here, received, all, List.take_length, whole]
    · exact .inr ⟨of_decide_eq_true closed, by simp [nothing]⟩
  · exact .inr ⟨closed, by simp [nothing]⟩

/-- One more text printed is right when it is the line of its round. -/
theorem answers_snoc {printed : List CString} {shown : CString}
    (answers : ∀ (k : Nat) line text, lines[k]? = some line → printed[k]? = some text →
      text.bytes = line)
    (last : ∀ line, lines[printed.length]? = some line → shown.bytes = line) (k : Nat)
    (line : List UInt8) (text : CString) (known : lines[k]? = some line)
    (here : (printed ++ [shown])[k]? = some text) : text.bytes = line := by
  by_cases early : k < printed.length
  · rw [List.getElem?_append_left early] at here
    exact answers k line text known here
  · have inside := (List.getElem?_eq_some_iff.mp here).1
    rw [List.length_append, List.length_singleton] at inside
    obtain rfl : k = printed.length := by omega
    rw [List.getElem?_concat_length, Option.some.injEq] at here
    rw [← here]
    exact last line known

/-- A step of the client keeps the assertion. -/
theorem Connection.Prompt.client (formed : Lines lines)
    (single : ∀ text ∈ lines.dropLast, text.length = 1) {label : Label}
    (prompt : connection.Prompt lines) (intact : after.Intact)
    (step : communicateServer connection label = some after) : after.Prompt lines := by
  cases label with
  | serverRead got => simp [communicateServer] at step
  | serverWrite success => simp [communicateServer] at step
  | clientFgets =>
    simp only [communicateServer, Option.ite_none_right_eq_some, Option.some.injEq] at step
    obtain ⟨place, rfl⟩ := step
    refine ⟨intact, prompt.answers, fun _ text here => ?_⟩
    have round := prompt.round (by simp [place]) text here
    have stdin : connection.client.stdin = text ++ (lines.drop
        (connection.client.printed.length + 1)).flatten := by
      rw [round.stdin, place]
      exact flatten_drop here
    have taken := formed.line_eq (split_at here)
    have member := List.mem_of_getElem? here
    obtain ⟨input, fetched, shown⟩ := shows_fgets connection.client.input
      (formed.nonempty text member) taken
    have sent := round.sent
    rw [place] at sent
    rw [stdin, fetched]
    exact ⟨rfl, sent, fun _ => round.quiet (by simp [place]), (by intro wrong; cases wrong),
      fun _ => shown⟩
  | clientWrite success =>
    simp only [communicateServer, Option.ite_none_right_eq_some] at step
    obtain ⟨place, written⟩ := step
    cases success with
    | false =>
      obtain rfl := Option.some.inj written
      exact prompt.stops intact rfl rfl
    | true =>
      obtain rfl := Option.some.inj written
      refine ⟨intact, prompt.answers, fun _ text here => ?_⟩
      have round := prompt.round (by simp [place]) text here
      have member := List.mem_of_getElem? here
      have shown := round.shown (by simp [place])
      have bytes := shown.text (formed.nulFree text member) (formed.short text member)
      have stdin := round.stdin
      have sent := round.sent
      rw [place] at stdin sent
      refine ⟨stdin, ?_, fun _ => round.quiet (by simp [place]), (by intro wrong; cases wrong),
        fun _ => shown⟩
      simp only [bytes, sent]
      exact (flatten_take_succ here).symm
  | clientRead got =>
    cases got with
    | none =>
      simp only [communicateServer, Option.ite_none_right_eq_some, Option.some.injEq] at step
      obtain ⟨-, rfl⟩ := step
      exact prompt.stops intact rfl rfl
    | some count =>
      simp only [communicateServer, Option.ite_none_right_eq_some, Option.some.injEq] at step
      obtain ⟨⟨place, readable⟩, rfl⟩ := step
      refine ⟨intact, prompt.answers, fun _ text here => ?_⟩
      have round := prompt.round (by simp [place]) text here
      have stdin := round.stdin
      have sent := round.sent
      rw [place] at stdin sent
      have quiet := round.quiet (by simp [place])
      have early := quiet.prefix_line here prompt.intact sent
      refine ⟨stdin, sent, fun wrong => absurd rfl wrong, fun _ more => ?_, fun _ => ?_⟩
      · exact quiet.reads here early (length_of_single single here more) readable
      · exact (round.shown (by simp [place])).receive early readable.2.1
  | clientPrint =>
    simp only [communicateServer, Option.ite_none_right_eq_some, Option.some.injEq] at step
    obtain ⟨place, rfl⟩ := step
    have length : (connection.client.printed ++
        [CString.ofBytes (connection.client.input.read clientSize)]).length =
          connection.client.printed.length + 1 := by
      simp
    refine ⟨intact, ?_, fun _ text here => ?_⟩
    · refine answers_snoc prompt.answers fun line known => ?_
      have round := prompt.round (by simp [place]) line known
      have member := List.mem_of_getElem? known
      exact (round.shown (by simp [place])).text (formed.nulFree line member)
        (formed.short line member)
    · simp only [length] at here ⊢
      have more : connection.client.printed.length + 1 < lines.length :=
        (List.getElem?_eq_some_iff.mp here).1
      obtain ⟨before, known⟩ : ∃ before, lines[connection.client.printed.length]? = some before :=
        ⟨_, List.getElem?_eq_getElem (by omega)⟩
      have round := prompt.round (by simp [place]) before known
      have stdin := round.stdin
      have sent := round.sent
      rw [place] at stdin sent
      exact ⟨stdin, sent, fun _ => round.settled place more, (by intro wrong; cases wrong),
        fun wrong => absurd rfl wrong⟩

/-- In every run on such lines the texts printed are the lines. -/
theorem Connection.prompt_run (formed : Lines lines)
    (single : ∀ text ∈ lines.dropLast, text.length = 1) {input buff : Buffer} {labels : List Label}
    (run : exec Connection.next (.start lines.flatten input buff) labels = some connection) :
    connection.Answers lines := by
  have initial : (Connection.start lines.flatten input buff).Prompt lines := by
    refine ⟨?_, ?_, fun _ text here => ⟨rfl, rfl, fun _ => .inl rfl, ?_, ?_⟩⟩
    · simp [Intact, start, Server.unwritten, Buffer.read]
    · intro k line text known shown
      simp [start] at shown
    · intro wrong
      cases wrong
    · intro wrong
      exact absurd rfl wrong
  have held := exec_induct (motive := fun _ state => state.Prompt lines) initial ?_ run
  · exact held.answers
  · intro labels before label after earlier prompt step
    have intact : after.Intact := (echo_intact (exec_snoc.mpr ⟨before, earlier, step⟩)).1
    rcases next_cases step with mine | theirs
    · exact prompt.client formed single intact mine
    · obtain ⟨client, active⟩ := communicateClient_client theirs
      exact prompt.server intact client active

end Prompt

section Late

variable {connection : Connection}

/-- Nothing is being echoed: the server waits and the client is about to take a line; these bytes
are still to be read by the client. -/
structure Connection.Rests (stdin leftover : List UInt8) (connection : Connection) : Prop where
  /-- The client is about to take a line. -/
  client : connection.client.pc = .fgets
  /-- This is the input it has not taken. -/
  stdin : connection.client.stdin = stdin
  /-- The server waits for bytes. -/
  server : connection.server.pc = .read
  /-- None are on their way to it. -/
  toServer : connection.toServer = []
  /-- These are on their way to the client. -/
  toClient : connection.toClient = leftover

/-- The server can echo everything that was sent. -/
theorem echo_all (client : Client) (bytes : List UInt8) :
    ∀ buff ret toClient, ∃ labels buff' ret',
      exec Connection.next ⟨client, ⟨.read, buff, ret⟩, bytes, toClient⟩ labels =
        some ⟨client, ⟨.read, buff', ret'⟩, [], toClient ++ bytes⟩ := by
  induction bytes with
  | nil =>
    intro buff ret toClient
    exact ⟨[], buff, ret, by simp [exec]⟩
  | cons byte bytes ih =>
    intro buff ret toClient
    have readable : Readable (byte :: bytes) serverSize (client.pc = .stopped) 1 := by
      refine ⟨by decide, by simp, .inl (by decide)⟩
    have copied : (receive buff (byte :: bytes) 1).read 1 = [byte] := read_receive (by simp)
    obtain ⟨labels, buff', ret', rest⟩ :=
      ih ((receive buff (byte :: bytes) 1).memcpy 0 .zeros serverSize) 0 (toClient ++ [byte])
    refine ⟨.serverRead (some 1) :: .serverWrite true :: labels, buff', ret', ?_⟩
    simp only [exec, Connection.next, communicateClient, readable, and_self, if_true,
      Option.bind_some, copied, List.drop_succ_cons, List.drop_zero]
    rw [rest]
    simp

/-- A round in which the whole line is echoed before the client reads some number of bytes. -/
theorem round_possible {text rest leftover : List UInt8} (count : Nat)
    (rests : connection.Rests (text ++ rest) leftover)
    (taken : line (clientSize - 1) (text ++ rest) = text) (nonempty : text ≠ [])
    (nulFree : 0 ∉ text) (short : text.length ≤ 127) (positive : 0 < count)
    (fits : count ≤ clientSize) (inside : count ≤ (leftover ++ text).length) :
    ∃ labels after input, exec Connection.next connection labels = some after ∧
      after.Rests rest ((leftover ++ text).drop count) ∧ Shows text input ∧
      after.client.printed = connection.client.printed ++
        [CString.ofBytes ((receive input (leftover ++ text) count).read clientSize)] := by
  obtain ⟨⟨pc, before, stdin, sent, received, printed⟩, ⟨place, buff, ret⟩, toServer, toClient⟩ :=
    connection
  obtain ⟨rfl, rfl, rfl, rfl, rfl⟩ := rests
  obtain ⟨input, fetched, shown⟩ := shows_fgets before nonempty taken
  have bytes := shown.text nulFree short
  obtain ⟨labels, buff', ret', echoed⟩ :=
    echo_all ⟨.read, input, rest, sent ++ text, received, printed⟩ text buff ret toClient
  have readable : Readable (toClient ++ text) clientSize (ServerPc.read = .stopped) count :=
    ⟨fits, inside, .inl positive⟩
  refine ⟨.clientFgets :: .clientWrite true :: labels ++ [.clientRead (some count), .clientPrint],
    ⟨⟨.fgets, receive input (toClient ++ text) count, rest, sent ++ text,
      received ++ (toClient ++ text).take count, printed ++
        [CString.ofBytes ((receive input (toClient ++ text) count).read clientSize)]⟩,
      ⟨.read, buff', ret'⟩, [], (toClient ++ text).drop count⟩,
    input, ?_, ⟨rfl, rfl, rfl, rfl, rfl⟩, shown, rfl⟩
  rw [List.cons_append, List.cons_append, exec, Connection.next, communicateServer]
  simp only [if_true, fetched, Option.bind_some]
  rw [exec, Connection.next, communicateServer]
  simp only [if_true, bytes, Option.bind_some, List.nil_append]
  rw [exec_append, echoed, Option.bind_some]
  simp only [exec, Connection.next, communicateServer, readable, and_self, if_true,
    Option.bind_some]

/-- The client can take the answers to the first lines as a whole. -/
theorem rounds_possible {lines : List (List UInt8)} (formed : Lines lines)
    (front back : List (List UInt8)) :
    ∀ connection done, lines = done ++ front ++ back →
      connection.Rests (front ++ back).flatten [] →
      ∃ labels after, exec Connection.next connection labels = some after ∧
        after.Rests back.flatten [] ∧
        after.client.printed.length = connection.client.printed.length + front.length := by
  induction front with
  | nil =>
    intro connection done _ rests
    exact ⟨[], connection, rfl, rests, by simp⟩
  | cons text front ih =>
    intro connection done split rests
    have place : lines = done ++ text :: (front ++ back) := by simp [split]
    have member : text ∈ lines := by simp [place]
    have nonempty := formed.nonempty text member
    have short := formed.short text member
    have positive : 0 < text.length := List.length_pos_iff.mpr nonempty
    rw [List.cons_append, List.flatten_cons] at rests
    obtain ⟨labels, middle, input, run, quiet, -, printed⟩ := round_possible text.length rests
      (formed.line_eq place) nonempty (formed.nulFree text member) short positive
      (short.trans (by decide)) (by simp)
    rw [List.nil_append, List.drop_length] at quiet
    obtain ⟨labels', after, onward, ends, count⟩ :=
      ih middle (done ++ [text]) (by simp [split]) quiet
    refine ⟨labels ++ labels', after, ?_, ends, ?_⟩
    · rw [exec_append, run, Option.bind_some, onward]
    · rw [count, printed]
      simp
      omega

/-- A text read over by this many bytes other than zero has at least as many. -/
theorem strlen_receive (input : Buffer) {stream : List UInt8} {count : Nat} (nulFree : 0 ∉ stream)
    (inside : count ≤ stream.length) (fits : count ≤ clientSize) :
    count ≤ (CString.ofBytes ((receive input stream count).read clientSize)).strlen := by
  have start : ((receive input stream count).read clientSize).take count = stream.take count := by
    rw [← read_receive inside, Buffer.read, ← List.map_take, List.take_range,
      Nat.min_eq_left fits]
    rfl
  have apart : ∀ byte ∈ stream.take count, (byte != 0) = true := by
    intro byte member
    rw [bne_iff_ne]
    rintro rfl
    exact nulFree (List.mem_of_mem_take member)
  have whole := List.take_append_drop count ((receive input stream count).read clientSize)
  change count ≤ (((receive input stream count).read clientSize).takeWhile (· != 0)).length
  rw [← whole, start, List.takeWhile_append_of_pos apart, List.length_append,
    List.length_take_of_le inside]
  omega

/-- After a line of more than one byte that is not the last one, a text can be wrong. -/
theorem answers_late {lines front back : List (List UInt8)} {text next : List UInt8}
    (formed : Lines lines) (split : lines = front ++ text :: next :: back)
    (long : 2 ≤ text.length) :
    ∃ labels connection,
      exec Connection.next (.start lines.flatten .zeros .zeros) labels = some connection ∧
        ¬connection.Answers lines := by
  have split' : lines = (front ++ [text]) ++ next :: back := by simp [split]
  have member : text ∈ lines := by simp [split]
  have member' : next ∈ lines := by simp [split]
  have initial : (Connection.start lines.flatten .zeros .zeros).Rests
      (front ++ text :: next :: back).flatten [] := ⟨rfl, by rw [split]; rfl, rfl, rfl, rfl⟩
  obtain ⟨first, early, run, rests, count⟩ :=
    rounds_possible formed front (text :: next :: back) _ [] split initial
  rw [List.flatten_cons] at rests
  obtain ⟨second, middle, _, run', rests', -, printed⟩ := round_possible 1 rests
    (formed.line_eq split) (formed.nonempty text member) (formed.nulFree text member)
    (formed.short text member) (by decide) (by decide) (by simp; omega)
  rw [List.flatten_cons] at rests'
  have nulFree : 0 ∉ (([] ++ text).drop 1 ++ next) := by
    intro inside
    rcases List.mem_append.mp inside with old | new
    · exact formed.nulFree text member (by simpa using List.mem_of_mem_drop old)
    · exact formed.nulFree next member' new
  have fits : next.length + 1 ≤ clientSize := Nat.succ_le_succ (formed.short next member')
  have enough : next.length + 1 ≤ (([] ++ text).drop 1 ++ next).length := by
    simp
    omega
  obtain ⟨third, late, input, run'', -, -, printed'⟩ := round_possible (next.length + 1) rests'
    (formed.line_eq split') (formed.nonempty next member') (formed.nulFree next member')
    (formed.short next member') (by omega) fits enough
  refine ⟨first ++ (second ++ third), late, ?_, ?_⟩
  · rw [exec_append, run, Option.bind_some, exec_append, run', Option.bind_some, run'']
  · intro answers
    have place : middle.client.printed.length = (front ++ [text]).length := by
      rw [printed, List.length_append, count]
      simp [Connection.start]
    have known : lines[(front ++ [text]).length]? = some next := by
      rw [split', List.getElem?_append_right (Nat.le_refl _)]
      simp
    have shown := answers (front ++ [text]).length next _ known (by
      rw [printed', ← place]
      exact List.getElem?_concat_length ..)
    have longer := strlen_receive input nulFree enough fits
    unfold CString.strlen at longer
    rw [shown] at longer
    omega

end Late

/-- For all lines of at most 127 bytes: in every run, whatever the interleaving and the splitting by
`read`, each text the client prints is the line it answers, if and only if every line but the last
has a single byte. -/
theorem answers_iff {lines : List (List UInt8)} (formed : Lines lines) :
    (∀ input buff labels connection,
      exec Connection.next (.start lines.flatten input buff) labels = some connection →
        connection.Answers lines) ↔
      ∀ text ∈ lines.dropLast, text.length = 1 := by
  constructor
  · intro right text member
    by_contra other
    obtain ⟨front, behind, here⟩ := List.append_of_mem member
    have nonempty : lines ≠ [] := by
      rintro rfl
      simp at member
    obtain ⟨next, back, more⟩ : ∃ next back, behind ++ [lines.getLast nonempty] = next :: back :=
      List.exists_cons_of_ne_nil (by simp)
    have split : lines = front ++ text :: next :: back := by
      rw [← more, ← List.cons_append, ← List.append_assoc, ← here, List.dropLast_concat_getLast]
    have long : 2 ≤ text.length := by
      have positive := List.length_pos_iff.mpr
        (formed.nonempty text (List.mem_of_mem_dropLast member))
      omega
    obtain ⟨labels, connection, run, wrong⟩ := answers_late formed split long
    exact wrong (right .zeros .zeros labels connection run)
  · intro single input buff labels connection run
    exact Connection.prompt_run formed single run

/-- An empty line and a longer one behind it are always answered. -/
theorem answers_newline :
    Lines [[10], [104, 101, 108, 108, 111, 33, 10]] ∧
      ∀ input buff labels connection,
        exec Connection.next (.start [[10], [104, 101, 108, 108, 111, 33, 10]].flatten input buff)
          labels = some connection →
        connection.Answers [[10], [104, 101, 108, 108, 111, 33, 10]] := by
  have formed : Lines [[10], [104, 101, 108, 108, 111, 33, 10]] :=
    ⟨by decide, by decide, by decide, by decide, by decide⟩
  exact ⟨formed, (answers_iff formed).mpr (by decide)⟩

/-- The client reads one byte of the answer to `ab` and the rest after it has sent `c`. -/
theorem answers_shifted :
    ∃ connection, exec Connection.next (.start [97, 98, 10, 99, 10] .zeros .zeros)
        [.clientFgets, .clientWrite true, .serverRead (some 3), .serverWrite true,
          .clientRead (some 1), .clientPrint, .clientFgets, .clientWrite true,
          .serverRead (some 2), .serverWrite true, .clientRead (some 4), .clientPrint] =
          some connection ∧
      ¬connection.Answers [[97, 98, 10], [99, 10]] := by
  have outcome : (exec Connection.next (.start [97, 98, 10, 99, 10] .zeros .zeros)
      [.clientFgets, .clientWrite true, .serverRead (some 3), .serverWrite true,
        .clientRead (some 1), .clientPrint, .clientFgets, .clientWrite true,
        .serverRead (some 2), .serverWrite true, .clientRead (some 4), .clientPrint]).map
        (fun connection => connection.client.printed.map CString.bytes) =
      some [[97, 98, 10], [98, 10, 99, 10]] := by
    decide +kernel
  obtain ⟨connection, run, printed⟩ := Option.map_eq_some_iff.mp outcome
  refine ⟨connection, run, fun answers => ?_⟩
  have second : (connection.client.printed.map CString.bytes)[1]? = some [98, 10, 99, 10] := by
    rw [printed]
    rfl
  rw [List.getElem?_map] at second
  obtain ⟨text, here, bytes⟩ := Option.map_eq_some_iff.mp second
  have wrong := answers 1 [99, 10] text rfl here
  rw [bytes] at wrong
  revert wrong
  decide

end NsuOs.Echo
