import NsuOs.Proxy.Context

/-!
# A request in several segments

`read_request` calls `read` once and takes what it returns for the request. Whichever handler loads
the block filled there looks up, keys its record by and forwards exactly those bytes, so a request
is treated as a whole when it arrives in one piece, and is forwarded as a whole only then.
-/
namespace NsuOs.Proxy

open NsuOs.Run

/-- Where the event uses the request, the request is this text. -/
def Event.Uses (text : CString) : Event → Prop
  | .find req _ => req = text
  | .fetch _ keyed _ _ _ => keyed = text
  | .write .remote _ bytes _ => bytes = text.bytes
  | _ => True

/-- The event loads this request block, and reads this text in it. -/
def Event.Reads (block : Nat) (text : CString) : Event → Prop
  | .loadRequest loaded => loaded = block
  | .strcpy source copied _ => source = block → copied = text
  | .fetch source keyed _ _ _ => source = block → keyed = text
  | _ => True

/-- What a handler has copied where it has loaded this block. -/
def Pc.Copied (block : Nat) (text : CString) : Pc → Prop
  | .strcpy _ loaded => loaded = block
  | pc => ∀ locals, pc.locals = some locals → locals.request0 = block ∧ locals.request = text

/-- A handler that reads one text in its block goes on using that text. -/
theorem Handler.Step.uses {handler after : Handler} {event : Event} {block : Nat} {text : CString}
    (step : Handler.Step handler event after) (copied : handler.pc.Copied block text)
    (reads : event.Reads block text) : after.pc.Copied block text ∧ event.Uses text := by
  cases step
  case cleanup => exact ⟨copied, trivial⟩
  case loadSocket => exact ⟨nofun, trivial⟩
  case loadRequest => exact ⟨reads, trivial⟩
  case strcpy fd loaded read stack fits =>
    refine ⟨?_, trivial⟩
    intro locals isLocals
    obtain rfl := Option.some.inj isLocals
    exact ⟨copied, reads copied⟩
  case miss locals => exact ⟨copied, (copied locals rfl).2⟩
  case hit locals copy => exact ⟨copied, (copied locals rfl).2⟩
  case writeCached locals copy sent =>
    refine ⟨?_, trivial⟩
    cases sent with
    | none => exact copied
    | some count => exact copied
  case fetch locals keyed record response garbage =>
    exact ⟨copied, reads (copied locals rfl).1⟩
  case requestFailed locals dest => exact ⟨nofun, congrArg CString.bytes (copied locals rfl).2⟩
  case requestSent locals dest count =>
    exact ⟨copied, congrArg CString.bytes (copied locals rfl).2⟩
  case reload | chunkFailed | push | post | ret => exact ⟨nofun, trivial⟩
  all_goals exact ⟨copied, trivial⟩

/-- Along a run of a handler that reads one text in its block every use is of that text. -/
theorem Handler.uses_run {events : List Event} {handler : Handler}
    (run : exec Handler.next Handler.start events = some handler) (block : Nat) (text : CString) :
    (∀ event ∈ events, event.Reads block text) →
      handler.pc.Copied block text ∧ ∀ event ∈ events, event.Uses text := by
  refine exec_induct (motive := fun events handler => (∀ event ∈ events,
    event.Reads block text) → handler.pc.Copied block text ∧ ∀ event ∈ events, event.Uses text)
    (fun _ => ⟨nofun, nofun⟩) ?_ run
  intro events middle event finish _ ih step reads
  obtain ⟨copied, used⟩ := ih fun other member => reads other (List.mem_append_left _ member)
  obtain ⟨copied', uses⟩ := (Handler.step_of_next step).uses copied (reads event (by simp))
  refine ⟨copied', fun other member => ?_⟩
  rcases List.mem_append.mp member with old | new
  · exact used other old
  · rw [List.mem_singleton.mp new]
    exact uses

/-- The request block a handler has loaded. -/
def Pc.block : Pc → Option Nat
  | .strcpy _ loaded => some loaded
  | pc => pc.locals.map Locals.request0

/-- A handler loads a block by `loadRequest` and keeps it. -/
theorem Handler.Step.block {handler after : Handler} {event : Event}
    (step : Handler.Step handler event after) {block : Nat} (loaded : after.pc.block = some block) :
    handler.pc.block = some block ∨ event = .loadRequest block := by
  cases step
  case cleanup => exact Or.inl loaded
  case loadRequest => exact Or.inr (congrArg Event.loadRequest (Option.some.inj loaded))
  case writeCached locals copy sent => cases sent <;> exact Or.inl loaded
  case loadSocket | reload | requestFailed | chunkFailed | push | post | ret => exact nomatch loaded
  all_goals exact Or.inl loaded

/-- A handler reads texts in the block it has loaded. -/
theorem Handler.Step.source {handler after : Handler} {event : Event} {block : Nat} {text : CString}
    (step : Handler.Step handler event after)
    (reads : (∃ stack, event = .strcpy block text stack) ∨
      ∃ record response garbage, event = .fetch block text record response garbage) :
    handler.pc.block = some block := by
  rcases reads with ⟨stack, rfl⟩ | ⟨record, response, garbage, rfl⟩ <;> cases step <;> rfl

/-- A program point before `ctx->request` is read. -/
def Pc.unloaded : Pc → Bool
  | .loadSocket | .loadRequest _ => true
  | _ => false

/-- `ctx->request` is read for `request0` once. -/
theorem Handler.Step.unloaded {handler after : Handler} {event : Event}
    (step : Handler.Step handler event after) :
    (after.pc.unloaded = true → handler.pc.unloaded = true ∧ ∀ block, event ≠ .loadRequest block) ∧
      ∀ block, event = .loadRequest block → handler.pc.unloaded = true := by
  cases step
  case cleanup => exact ⟨fun early => ⟨early, nofun⟩, nofun⟩
  case loadSocket => exact ⟨fun _ => ⟨rfl, nofun⟩, nofun⟩
  case loadRequest => exact ⟨nofun, fun _ _ => rfl⟩
  case writeCached locals copy sent => cases sent <;> exact ⟨nofun, nofun⟩
  all_goals exact ⟨nofun, nofun⟩

/-- A handler loads one request block. -/
theorem Handler.loads_one {events : List Event} {handler : Handler}
    (run : exec Handler.next Handler.start events = some handler) {block block' : Nat}
    (first : .loadRequest block ∈ events) (second : .loadRequest block' ∈ events) :
    block = block' := by
  suffices loads : (handler.pc.unloaded = true → ∀ block, .loadRequest block ∉ events) ∧
      ∀ block block', .loadRequest block ∈ events → .loadRequest block' ∈ events →
        block = block' from loads.2 block block' first second
  refine exec_induct (motive := fun events handler =>
    (handler.pc.unloaded = true → ∀ block, .loadRequest block ∉ events) ∧
      ∀ block block', .loadRequest block ∈ events → .loadRequest block' ∈ events →
        block = block') ⟨fun _ _ => nofun, nofun⟩ ?_ run
  intro events middle event finish _ ih step
  obtain ⟨nothing, one⟩ := ih
  obtain ⟨early, loading⟩ := (Handler.step_of_next step).unloaded
  constructor
  · intro unloaded block member
    obtain ⟨before, other⟩ := early unloaded
    rcases List.mem_append.mp member with old | new
    · exact nothing before block old
    · exact other block (List.mem_singleton.mp new).symm
  · intro block block' member member'
    rw [List.mem_append, List.mem_singleton] at member member'
    rcases member with old | new <;> rcases member' with old' | new'
    · exact one block block' old old'
    · exact absurd old (nothing (loading block' new'.symm) block)
    · exact absurd old' (nothing (loading block new.symm) block')
    · exact Event.loadRequest.inj (new.trans new'.symm)

/-- Only a client whose request was read waits, and only a waiting one is stored in `ctx`. -/
theorem Acceptor.Step.waiting {server : Fd} {acceptor after : Acceptor} {event : AcceptEvent}
    (step : Acceptor.Step server acceptor event after) :
    (∀ client ∈ after.waiting,
      client ∈ acceptor.waiting ++ (receivedBy (.acceptor event)).map Prod.fst) ∧
      ∀ client, event = .store client → client ∈ acceptor.waiting := by
  cases step
  case cleanup => exact ⟨fun client member => List.mem_append_left _ member, nofun⟩
  case received => exact ⟨fun client member => member, nofun⟩
  case semWait => exact ⟨fun client member => List.mem_append_left _ member, nofun⟩
  case store stored =>
    refine ⟨fun client member => List.mem_append_left _ member, ?_⟩
    rintro client ⟨⟩
    exact List.mem_singleton_self _
  all_goals exact ⟨nofun, nofun⟩

/-- The accept loop changes `ctx` by storing a client in it. -/
theorem Shared.performAccept_ctx {shared after : Shared} {event : AcceptEvent}
    (step : shared.performAccept event = some after) :
    after.ctx = shared.ctx ∨ ∃ client, event = .store client ∧ after.ctx = some client := by
  unfold performAccept at step
  split at step
  case h_2 =>
    rw [Option.ite_none_right_eq_some] at step
    obtain ⟨-, rfl⟩ := opened_eq_some.mp step.2
    exact Or.inl rfl
  case h_3 =>
    rw [Option.ite_none_right_eq_some] at step
    have change := step.2
    split at change <;> exact Or.inl (Option.some.inj change ▸ rfl)
  case h_4 =>
    rw [Option.ite_none_right_eq_some] at step
    exact Or.inl (Option.some.inj step.2 ▸ rfl)
  case h_5 client => exact Or.inr ⟨client, rfl, Option.some.inj step ▸ rfl⟩
  case h_7 => exact Or.inl (cleanup_frame step).2.1
  all_goals exact Or.inl (Option.some.inj step ▸ rfl)

namespace Process

variable {process after : Process} {server : Fd} {mem : Memory} {cache : Ptr} {garbage : Cache}
  {trace : List Label}

/-- Only clients whose requests were read wait, stand in `ctx` or have their block loaded. -/
structure Loaded (process : Process) (clients : List Context) : Prop where
  /-- The client that waits for its handler. -/
  waiting : ∀ client ∈ process.acceptor.waiting, client ∈ clients
  /-- The client in `ctx`. -/
  ctx : ∀ client, process.shared.ctx = some client → client ∈ clients
  /-- The blocks the handlers have loaded. -/
  block : ∀ (i : Nat) (thread : Thread) (block : Nat), process.threads[i]? = some thread →
    thread.handler.pc.block = some block → block ∈ clients.map Context.request

/-- A step of the accept loop. -/
theorem Loaded.acceptor {clients : List Context} (loaded : Loaded process clients)
    {event : AcceptEvent} (step : process.next (.acceptor event) = some after) :
    Loaded after (clients ++ (receivedBy (.acceptor event)).map Prod.fst) := by
  obtain ⟨acceptor, shared, moved, performed, rfl⟩ := next_acceptor step
  obtain ⟨waiting, stored⟩ := (Acceptor.step_of_next moved).waiting
  refine ⟨?_, ?_, ?_⟩
  · intro client member
    rcases List.mem_append.mp (waiting client member) with old | new
    · exact List.mem_append_left _ (loaded.waiting client old)
    · exact List.mem_append_right _ new
  · intro client here
    refine List.mem_append_left _ ?_
    rcases Shared.performAccept_ctx performed with same | ⟨now, isStore, filled⟩
    · exact loaded.ctx client (same.symm.trans here)
    · obtain rfl := Option.some.inj (filled.symm.trans here)
      exact loaded.waiting now (stored now isStore)
  · intro i thread block here isBlock
    rcases thread_appended here with old | ⟨-, -, client, -, rfl⟩
    · rw [List.map_append]
      exact List.mem_append_left _ (loaded.block i thread block old isBlock)
    · exact nomatch isBlock

/-- A step of a handler. -/
theorem Loaded.thread {clients : List Context} (loaded : Loaded process clients) {i : Nat}
    {event : Event} (step : process.next (.thread i event) = some after) :
    Loaded after clients := by
  obtain ⟨thread, handler, shared, here, moved, performed, rfl⟩ := next_thread step
  have ctx := (Shared.perform_frame performed).2.1
  refine ⟨loaded.waiting, fun client filled => loaded.ctx client (ctx.symm.trans filled), ?_⟩
  intro j other block there isBlock
  rcases thread_moved there with ⟨rfl, rfl⟩ | ⟨-, old⟩
  · rcases (Handler.step_of_next moved).block isBlock with before | rfl
    · exact loaded.block j thread block here before
    · simp only [Shared.perform, Option.ite_none_right_eq_some] at performed
      obtain ⟨client, filled, rfl⟩ := Option.map_eq_some_iff.mp performed.1
      exact List.mem_map_of_mem (loaded.ctx client filled)
  · exact loaded.block j other block old isBlock

/-- Along every run only requests that were read are loaded. -/
theorem loaded_run (run : exec next (start server mem cache garbage) trace = some process) :
    Loaded process ((received trace).map Prod.fst) := by
  refine exec_induct (motive := fun labels state => Loaded state ((received labels).map Prod.fst))
    ⟨?_, ?_, ?_⟩ ?_ run
  · intro client member
    exact absurd member (by simp [start, Acceptor.waiting])
  · intro client filled
    exact absurd filled (by simp [start])
  · intro i thread block here
    exact absurd here (by simp [start])
  · intro labels middle label finish _ loaded step
    rw [received_snoc, List.map_append]
    cases label with
    | acceptor event => exact loaded.acceptor step
    | thread i event =>
      rw [receivedBy_thread, List.map_nil, List.append_nil]
      exact loaded.thread step

/-- What a handler reads in a block is the text that was read into it. -/
theorem text_read (run : exec next (start server mem cache garbage) trace = some process) {i : Nat}
    {event : Event} {client : Context} {text read : CString}
    (entry : (client, text) ∈ received trace) (member : event ∈ eventsOf i trace)
    (reads : (∃ stack, event = .strcpy client.request read stack) ∨
      ∃ record response garbage, event = .fetch client.request read record response garbage) :
    read = text := by
  obtain ⟨earlier, later, before, after, split, reached, step⟩ :=
    exec_member run (mem_eventsOf.mp member)
  obtain ⟨thread, handler, shared, here, moved, performed, -⟩ := next_thread step
  have block := (loaded_run reached).block i thread client.request here
    ((Handler.step_of_next moved).source reads)
  simp only [List.mem_map, exists_exists_and_eq_and] at block
  obtain ⟨source, isReceived, sameBlock⟩ := block
  have holds : before.shared.Holds source.1.request read := by
    rw [sameBlock]
    rcases reads with ⟨stack, rfl⟩ | ⟨record, response, garbage, rfl⟩
    all_goals
      simp only [Shared.perform, Option.ite_none_right_eq_some] at performed
      exact performed.1
  have later : source ∈ received trace := by
    rw [split, received, List.flatMap_append]
    exact List.mem_append_left _ isReceived
  have same := List.inj_on_of_nodup_map (blocks_run run).apart later entry sameBlock
  rw [(blocks_run reached).text source isReceived read holds, same]

/-- The handler that loads the block of a client uses the text that was read into it. -/
theorem uses_received (run : exec next (start server mem cache garbage) trace = some process)
    {i : Nat} {client : Context} {text : CString} (entry : (client, text) ∈ received trace)
    (loads : .loadRequest client.request ∈ eventsOf i trace) :
    ∀ event ∈ eventsOf i trace, event.Uses text := by
  have inside : i < process.threads.length := by
    by_contra beyond
    rw [eventsOf_uncreated run (Nat.le_of_not_lt beyond)] at loads
    exact nomatch loads
  have own := handler_run run (List.getElem?_eq_getElem inside)
  refine (Handler.uses_run own client.request text fun event member => ?_).2
  cases event with
  | loadRequest loaded => exact Handler.loads_one own member loads
  | strcpy source copied stack =>
    rintro rfl
    exact text_read run entry member (Or.inl ⟨stack, rfl⟩)
  | fetch source keyed record response leftover =>
    rintro rfl
    exact text_read run entry member (Or.inr ⟨record, response, leftover, rfl⟩)
  | _ => trivial

end Process

/-- Where the event uses a key or forwards bytes, it is the hash of this request, or all of it. -/
def Event.Whole (request : CString) : Event → Prop
  | .find req _ => hash req = hash request
  | .fetch _ keyed _ _ _ => hash keyed = hash request
  | .write .remote _ bytes _ => bytes = request.bytes
  | _ => True

/-- Every use of the request is of all of it. -/
def WholeRequest (request : CString) (events : List Event) : Prop :=
  ∀ event ∈ events, event.Whole request

/-- The handler has written a request to the remote server. -/
def Forwards (events : List Event) : Prop :=
  ∃ fd bytes sent, .write .remote fd bytes sent ∈ events

/-- A request comes from a client in these pieces, the accept loop has read the first one, and this
handler has loaded what was read. -/
structure Arrives (request : CString) (pieces : List (List UInt8)) (trace : List Label) (i : Nat) :
    Prop where
  /-- The pieces make up the request. -/
  split : pieces.flatten = request.bytes
  /-- `read` returns no empty piece before the end. -/
  nonempty : [] ∉ pieces
  /-- `read_request` reads once. -/
  read : ∃ client piece rest, pieces = piece :: rest ∧
    .acceptor (.read client (some piece)) ∈ trace ∧ .loadRequest client.request ∈ eventsOf i trace

namespace Arrives

variable {request : CString} {pieces : List (List UInt8)} {process : Process} {server : Fd}
  {mem : Memory} {cache : Ptr} {garbage : Cache} {trace : List Label} {i : Nat}

/-- The handler uses the first piece. -/
theorem uses_first (arrives : Arrives request pieces trace i)
    (run : exec Process.next (Process.start server mem cache garbage) trace = some process) :
    ∃ text rest, pieces = text.bytes :: rest ∧ ∀ event ∈ eventsOf i trace, event.Uses text := by
  obtain ⟨client, piece, rest, isFirst, wasRead, loads⟩ := arrives.read
  have nulFree : 0 ∉ piece := by
    intro zero
    refine request.nulFree ?_
    rw [← arrives.split, isFirst, List.flatten_cons]
    exact List.mem_append_left _ zero
  have entry : (client, CString.ofBytes piece) ∈ received trace := by
    refine List.mem_flatMap.mpr ⟨_, wasRead, ?_⟩
    cases piece with
    | nil => exact absurd (isFirst ▸ List.mem_cons_self) arrives.nonempty
    | cons byte bytes => exact List.mem_singleton_self _
  refine ⟨CString.ofBytes piece, rest, ?_, Process.uses_received run entry loads⟩
  rw [CString.bytes_ofBytes nulFree]
  exact isFirst

/-- A request in one piece is used as a whole. -/
theorem whole (arrives : Arrives request pieces trace i)
    (run : exec Process.next (Process.start server mem cache garbage) trace = some process)
    (one : pieces = [request.bytes]) : WholeRequest request (eventsOf i trace) := by
  obtain ⟨text, rest, isFirst, uses⟩ := arrives.uses_first run
  have same : text = request := by
    rw [one] at isFirst
    obtain ⟨text, nulFree⟩ := text
    obtain rfl := (List.cons.inj isFirst).1
    rfl
  rw [same] at uses
  intro event member
  have used := uses event member
  cases event with
  | find req found => exact congrArg hash used
  | fetch block keyed record response garbage => exact congrArg hash used
  | write target fd bytes sent =>
    cases target with
    | remote => exact used
    | _ => trivial
  | _ => trivial

/-- Only a request in one piece is forwarded as a whole. -/
theorem one_of_whole (arrives : Arrives request pieces trace i)
    (run : exec Process.next (Process.start server mem cache garbage) trace = some process)
    (forwards : Forwards (eventsOf i trace))
    (whole : WholeRequest request (eventsOf i trace)) : pieces = [request.bytes] := by
  obtain ⟨text, rest, isFirst, uses⟩ := arrives.uses_first run
  obtain ⟨fd, bytes, sent, member⟩ := forwards
  have sentText : bytes = text.bytes := uses _ member
  have sentWhole : bytes = request.bytes := whole _ member
  have split := arrives.split
  have nonempty := arrives.nonempty
  rw [isFirst, ← sentText, sentWhole] at split nonempty ⊢
  have nothing : rest.flatten = [] := by simpa using split
  cases rest with
  | nil => rfl
  | cons piece others =>
    rw [List.flatten_cons, List.append_eq_nil_iff] at nothing
    exact absurd (by simp [nothing.1]) nonempty

end Arrives

/-- However a request is split in two runs, both handlers use its hash and forward all of it when
it arrives in one piece in both, and, once both have forwarded it, only then. -/
theorem whole_request_iff {request : CString} {server server' : Fd} {mem mem' : Memory}
    {cache cache' : Ptr} {garbage garbage' : Cache} {trace trace' : List Label}
    {process process' : Process} {pieces pieces' : List (List UInt8)} {i i' : Nat}
    (run : exec Process.next (Process.start server mem cache garbage) trace = some process)
    (run' : exec Process.next (Process.start server' mem' cache' garbage') trace' = some process')
    (arrives : Arrives request pieces trace i) (arrives' : Arrives request pieces' trace' i') :
    (pieces = [request.bytes] ∧ pieces' = [request.bytes] →
      WholeRequest request (eventsOf i trace) ∧ WholeRequest request (eventsOf i' trace')) ∧
    (Forwards (eventsOf i trace) → Forwards (eventsOf i' trace') →
      (WholeRequest request (eventsOf i trace) ∧ WholeRequest request (eventsOf i' trace') ↔
        pieces = [request.bytes] ∧ pieces' = [request.bytes])) := by
  have enough : pieces = [request.bytes] ∧ pieces' = [request.bytes] →
      WholeRequest request (eventsOf i trace) ∧ WholeRequest request (eventsOf i' trace') := by
    rintro ⟨one, one'⟩
    exact ⟨arrives.whole run one, arrives'.whole run' one'⟩
  refine ⟨enough, fun forwards forwards' => ⟨?_, enough⟩⟩
  rintro ⟨whole, whole'⟩
  exact ⟨arrives.one_of_whole run forwards whole, arrives'.one_of_whole run' forwards' whole'⟩

/-- A handler works on the first piece of a request until it has forwarded it. -/
def forwarded (piece : List UInt8) : List Label :=
  acceptOne ⟨4, 0⟩ piece ++ lookUp 0 ⟨4, 0⟩ (CString.ofBytes piece) none ++
    reach 0 ⟨4, 0⟩ (CString.ofBytes piece) 2 5 ++
    [.thread 0 (.write .remote 5 piece (some piece.length))]

/-- It loads what the accept loop read. -/
theorem forwarded_arrives {request : CString} {piece : List UInt8} {rest : List (List UInt8)}
    (split : (piece :: rest).flatten = request.bytes) (nonempty : [] ∉ piece :: rest) :
    Arrives request (piece :: rest) (forwarded piece) 0 where
  split := split
  nonempty := nonempty
  read := ⟨⟨4, 0⟩, piece, rest, rfl, by simp [forwarded, acceptOne],
    by simp [forwarded, acceptOne, lookUp, eventsOf]⟩

/-- A request that arrives in one piece. -/
theorem whole_request_one_piece :
    WholeRequest (requestFor [65]) (eventsOf 0 (forwarded (requestFor [65]).bytes)) := by
  obtain ⟨process, run⟩ := Option.isSome_iff_exists.mp
    (by decide +kernel : (exec Process.next (Process.start 3 Heap.empty 1 ⟨7, 0, 0, 0⟩)
      (forwarded (requestFor [65]).bytes)).isSome)
  have arrives : Arrives (requestFor [65]) [(requestFor [65]).bytes]
      (forwarded (requestFor [65]).bytes) 0 :=
    forwarded_arrives (by simp) (by decide +kernel)
  exact ((whole_request_iff run run arrives arrives).1 ⟨rfl, rfl⟩).1

/-- A request whose last line end comes in a second piece is looked up and forwarded without it. -/
theorem whole_request_two_pieces :
    ∃ process process' first second,
      exec Process.next (Process.start 3 Heap.empty 1 ⟨7, 0, 0, 0⟩)
        (forwarded (requestFor [65]).bytes) = some process ∧
      exec Process.next (Process.start 3 Heap.empty 1 ⟨7, 0, 0, 0⟩) (forwarded first) =
        some process' ∧
      (requestFor [65]).strlen < maxBufferSize ∧ [13, 10, 13, 10] <:+ (requestFor [65]).bytes ∧
      Arrives (requestFor [65]) [(requestFor [65]).bytes] (forwarded (requestFor [65]).bytes) 0 ∧
      Arrives (requestFor [65]) [first, second] (forwarded first) 0 ∧
      ¬ (WholeRequest (requestFor [65]) (eventsOf 0 (forwarded (requestFor [65]).bytes)) ∧
        WholeRequest (requestFor [65]) (eventsOf 0 (forwarded first))) := by
  have whole : (exec Process.next (Process.start 3 Heap.empty 1 ⟨7, 0, 0, 0⟩)
      (forwarded (requestFor [65]).bytes)).isSome := by
    decide +kernel
  have cut : (exec Process.next (Process.start 3 Heap.empty 1 ⟨7, 0, 0, 0⟩)
      (forwarded ((requestFor [65]).bytes.take 34))).isSome := by
    decide +kernel
  obtain ⟨process, run⟩ := Option.isSome_iff_exists.mp whole
  obtain ⟨process', run'⟩ := Option.isSome_iff_exists.mp cut
  refine ⟨process, process', (requestFor [65]).bytes.take 34, (requestFor [65]).bytes.drop 34, run,
    run', by decide +kernel, by decide +kernel, forwarded_arrives (by simp) (by decide +kernel),
    forwarded_arrives (by simp) (by decide +kernel), ?_⟩
  rintro ⟨-, wrong⟩
  have member : .write .remote 5 ((requestFor [65]).bytes.take 34)
      (some ((requestFor [65]).bytes.take 34).length) ∈
        eventsOf 0 (forwarded ((requestFor [65]).bytes.take 34)) :=
    mem_eventsOf.mpr (by simp [forwarded])
  have same : (requestFor [65]).bytes.take 34 = (requestFor [65]).bytes := wrong _ member
  exact absurd same (by decide +kernel)

end NsuOs.Proxy
