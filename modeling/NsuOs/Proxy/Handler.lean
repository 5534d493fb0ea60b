import NsuOs.Base.Run
import NsuOs.Proxy.CacheList

/-!
# One handler thread

`execute_client_request` with `send_from_cache` and `connect_to_remote` inlined, as a machine
whose steps are the calls it makes. An event carries the arguments of the call and what came
back, so the machine alone says which calls a handler can make in which order, and the rest of
the process says which results they can have. The calls without a result that matters (`close`
and `free`) stand in a list of things to do before the next program point.

A step the source leaves undefined has no successor: a missing `Host:`, a host name that does not
fit, a response beyond its buffer. `freeaddrinfo` on the pointer a failed `getaddrinfo` did not
set goes on as it does for `NULL`. Logging is left out, and allocations do not fail.
-/
namespace NsuOs.Proxy

/-- A descriptor number, or `SOCKET_ERROR`. -/
abbrev Fd := Int

/-- `SOCKET_ERROR`. -/
def socketError : Fd := -1

/-- `HOST_SIZE`. -/
def hostSize : Nat := 50

/-- `HOST`, the text `Host:`. -/
def hostText : List UInt8 := [72, 111, 115, 116, 58]

/-- The local variables of a handler once `request` is copied. -/
structure Locals where
  /-- `client_socket`. -/
  clientSocket : Fd
  /-- `request0`, the block `ctx->request` pointed to. -/
  request0 : Nat
  /-- The string in the array `request`. -/
  request : CString
  /-- What the stack held where the array `request` is. -/
  stack : Buffer

/-- The array `request` after `strcpy`. -/
def Locals.array (locals : Locals) : Buffer := Buffer.strcpy locals.stack locals.request

/-- The host name between `Host: ` and the next carriage return; `none` where the source reads
through `NULL`, past the array, or writes through a null result of `memccpy`. -/
def Locals.host (locals : Locals) : Option CString := do
  let found ← strstr hostText locals.request.bytes
  let start := found + 6
  let copied ← memccpy 13 (min hostSize (maxBufferSize - start))
    (Buffer.read (fun i => locals.array (start + i)) hostSize)
  some (CString.ofBytes copied.dropLast)

/-- A block a handler allocates for itself. -/
inductive Part where
  /-- `cache_record` of `send_from_cache`. -/
  | cacheRecord
  /-- `buffer`. -/
  | buffer
  /-- The address list of `getaddrinfo`. -/
  | addrinfo
  /-- `res0` after a failed `getaddrinfo`, which did not set it. -/
  | unsetAddrinfo
  deriving DecidableEq

/-- A call whose result is not looked at. -/
inductive Cleanup where
  /-- `close`. -/
  | close (fd : Fd)
  /-- `free` or `freeaddrinfo` on a block of the handler. -/
  | free (part : Part)
  /-- `free` on a request block. -/
  | freeRequest (block : Nat)
  /-- `destroy_cache`. -/
  | destroyCache
  deriving DecidableEq

/-- The three places that call `write`. -/
inductive Target where
  /-- The cached response to the client. -/
  | cached
  /-- The request to the remote server. -/
  | remote
  /-- A chunk of the response to the client. -/
  | client
  deriving DecidableEq

/-- A call of a handler with its arguments and its result. -/
inductive Event where
  /-- Read `ctx->client_socket`. -/
  | loadSocket (fd : Fd)
  /-- Read `ctx->request`. -/
  | loadRequest (block : Nat)
  /-- `strcpy(request, request0)` over what the stack held. -/
  | strcpy (block : Nat) (text : CString) (stack : Buffer)
  /-- `find_in_cache`; the bytes found, `none` for a miss. -/
  | find (req : CString) (found : Option (List UInt8))
  /-- `write`; the count accepted, `none` for an error. -/
  | write (target : Target) (fd : Fd) (bytes : List UInt8) (sent : Option Nat)
  /-- Read `ctx->request` again, for `free(ctx->request)`. -/
  | reload (block : Nat)
  /-- `malloc`, `init_cache_record` and `add_request(record, request0)`. -/
  | fetch (block : Nat) (text : CString) (record response : Ptr) (garbage : Cache)
  /-- `getaddrinfo`. -/
  | getaddrinfo (host : CString) (ok : Bool)
  /-- `socket`; `none` for an error. -/
  | socket (fd : Option Fd)
  /-- `connect`. -/
  | connect (fd : Fd) (ok : Bool)
  /-- `read` from the remote server; `none` for an error, no bytes at the end of the stream. -/
  | read (fd : Fd) (got : Option (List UInt8))
  /-- `add_response`. -/
  | addResponse (chunk : List UInt8)
  /-- `add_size` and `push_record`. -/
  | push
  /-- `close`, `free`. -/
  | cleanup (call : Cleanup)
  /-- `sem_post` and the return behind it. -/
  | post
  /-- A return that no `sem_post` precedes. -/
  | ret

/-- Where a handler is, with the variables that are set there. -/
inductive Pc where
  /-- About to read `ctx->client_socket`. -/
  | loadSocket
  /-- About to read `ctx->request`. -/
  | loadRequest (fd : Fd)
  /-- About to copy the request. -/
  | strcpy (fd : Fd) (block : Nat)
  /-- About to look the request up. -/
  | find (locals : Locals)
  /-- About to write the cached response. -/
  | writeCached (locals : Locals) (copy : List UInt8)
  /-- About to read `ctx->request` for `free`. -/
  | reload (locals : Locals)
  /-- About to make a record. -/
  | fetch (locals : Locals)
  /-- About to resolve the host. -/
  | getaddrinfo (locals : Locals)
  /-- About to make a socket. -/
  | socket (locals : Locals)
  /-- About to connect. -/
  | connect (locals : Locals) (dest : Fd)
  /-- About to write the request. -/
  | writeRequest (locals : Locals) (dest : Fd)
  /-- About to read from the remote server, `all_bytes_read` bytes stored. -/
  | read (locals : Locals) (dest : Fd) (stored : Nat)
  /-- About to write a chunk to the client. -/
  | writeClient (locals : Locals) (dest : Fd) (stored : Nat) (chunk : List UInt8)
  /-- About to store a chunk. -/
  | addResponse (locals : Locals) (dest : Fd) (stored : Nat) (chunk : List UInt8)
  /-- About to push the record. -/
  | push (locals : Locals) (dest : Fd)
  /-- About to post and return. -/
  | post
  /-- About to return without posting. -/
  | ret
  /-- Returned. -/
  | done

/-- A handler: calls to make first, then the program point. -/
structure Handler where
  /-- Calls to make before going on. -/
  todo : List Cleanup
  /-- The program point behind them. -/
  pc : Pc

/-- Go on at a program point with nothing to do before. -/
def Pc.now (pc : Pc) : Handler := ⟨[], pc⟩

namespace Handler

/-- A handler as `pthread_create` starts it. -/
def start : Handler := Pc.loadSocket.now

/-- `send_from_cache` after its `write`. -/
def afterCached (locals : Locals) : Option Nat → Handler
  | none => ⟨[.close locals.clientSocket, .free .cacheRecord], .fetch locals⟩
  | some _ => ⟨[.free .cacheRecord, .close locals.clientSocket], .reload locals⟩

/-- `execute_client_request` after `connect_to_remote` failed: `client_socket` is closed and the
request is written all the same. -/
def notConnected (locals : Locals) (before : List Cleanup) : Handler :=
  ⟨before ++ [.close locals.clientSocket], .writeRequest locals socketError⟩

/-- Both error branches behind a failed `write`. -/
def writeFailed (locals : Locals) (dest : Fd) : Handler :=
  ⟨[.close locals.clientSocket, .close dest], .ret⟩

/-- The end of `execute_client_request`. -/
def finish (locals : Locals) (dest : Fd) : Handler :=
  ⟨[.close locals.clientSocket, .close dest, .free .buffer, .freeRequest locals.request0], .post⟩

end Handler

/-- One step at a program point. -/
def Pc.next : Pc → Event → Option Handler
  | .loadSocket, .loadSocket fd => some (Pc.loadRequest fd).now
  | .loadRequest fd, .loadRequest block => some (Pc.strcpy fd block).now
  | .strcpy fd block, .strcpy block' text stack =>
    if block' = block ∧ text.strlen < maxBufferSize then
      some (Pc.find ⟨fd, block, text, stack⟩).now
    else none
  | .find locals, .find req found =>
    if req = locals.request then
      match found with
      | none => some (Pc.fetch locals).now
      | some copy => some (Pc.writeCached locals copy).now
    else none
  | .writeCached locals copy, .write .cached fd bytes sent =>
    if fd = locals.clientSocket ∧ bytes = copy then some (Handler.afterCached locals sent)
    else none
  | .reload locals, .reload block =>
    some ⟨[.freeRequest block, .close locals.clientSocket], .ret⟩
  | .fetch locals, .fetch block _ _ _ _ =>
    if block = locals.request0 then some (Pc.getaddrinfo locals).now else none
  | .getaddrinfo locals, .getaddrinfo host ok =>
    if locals.host = some host then
      if ok then some (Pc.socket locals).now
      else some (Handler.notConnected locals [.free .unsetAddrinfo])
    else none
  | .socket locals, .socket none => some (Handler.notConnected locals [])
  | .socket locals, .socket (some dest) => some (Pc.connect locals dest).now
  | .connect locals dest, .connect fd ok =>
    if fd = dest then
      if ok then some (Pc.writeRequest locals dest).now
      else some (Handler.notConnected locals [.close dest, .free .addrinfo])
    else none
  | .writeRequest locals dest, .write .remote fd bytes sent =>
    if fd = dest ∧ bytes = locals.request.bytes then
      match sent with
      | none => some (Handler.writeFailed locals dest)
      | some _ => some (Pc.read locals dest 0).now
    else none
  | .read locals dest stored, .read fd got =>
    if fd = dest then
      match got with
      | some (byte :: rest) => some (Pc.writeClient locals dest stored (byte :: rest)).now
      | some [] | none => some (Pc.push locals dest).now
    else none
  | .writeClient locals dest stored chunk, .write .client fd bytes sent =>
    if fd = locals.clientSocket ∧ bytes = chunk then
      match sent with
      | none => some (Handler.writeFailed locals dest)
      | some _ => some (Pc.addResponse locals dest stored chunk).now
    else none
  | .addResponse locals dest stored chunk, .addResponse bytes =>
    if bytes = chunk ∧ stored + chunk.length ≤ cacheBufferSize then
      some (Pc.read locals dest (stored + chunk.length)).now
    else none
  | .push locals dest, .push => some (Handler.finish locals dest)
  | .post, .post => some Pc.done.now
  | .ret, .ret => some Pc.done.now
  | _, _ => none

/-- One step of a handler. -/
def Handler.next (handler : Handler) (event : Event) : Option Handler :=
  match handler.todo with
  | [] => handler.pc.next event
  | call :: rest =>
    match event with
    | .cleanup made => if made = call then some ⟨rest, handler.pc⟩ else none
    | _ => none

/-- Every step a handler can make, one constructor for each outcome of each call. -/
inductive Handler.Step : Handler → Event → Handler → Prop
  /-- A call is made and ticked off. -/
  | cleanup (call : Cleanup) (rest : List Cleanup) (pc : Pc) :
    Step ⟨call :: rest, pc⟩ (.cleanup call) ⟨rest, pc⟩
  /-- `ctx->client_socket` is read. -/
  | loadSocket (fd : Fd) : Step Pc.loadSocket.now (.loadSocket fd) (Pc.loadRequest fd).now
  /-- `ctx->request` is read. -/
  | loadRequest (fd : Fd) (block : Nat) :
    Step (Pc.loadRequest fd).now (.loadRequest block) (Pc.strcpy fd block).now
  /-- The request is copied. -/
  | strcpy (fd : Fd) (block : Nat) (text : CString) (stack : Buffer)
    (fits : text.strlen < maxBufferSize) :
    Step (Pc.strcpy fd block).now (.strcpy block text stack)
      (Pc.find ⟨fd, block, text, stack⟩).now
  /-- The request is not in the cache. -/
  | miss (locals : Locals) :
    Step (Pc.find locals).now (.find locals.request none) (Pc.fetch locals).now
  /-- The request is in the cache. -/
  | hit (locals : Locals) (copy : List UInt8) :
    Step (Pc.find locals).now (.find locals.request (some copy)) (Pc.writeCached locals copy).now
  /-- The cached response is written, or not. -/
  | writeCached (locals : Locals) (copy : List UInt8) (sent : Option Nat) :
    Step (Pc.writeCached locals copy).now (.write .cached locals.clientSocket copy sent)
      (afterCached locals sent)
  /-- `ctx->request` is read again. -/
  | reload (locals : Locals) (block : Nat) :
    Step (Pc.reload locals).now (.reload block)
      ⟨[.freeRequest block, .close locals.clientSocket], .ret⟩
  /-- A record is made. -/
  | fetch (locals : Locals) (text : CString) (record response : Ptr) (garbage : Cache) :
    Step (Pc.fetch locals).now (.fetch locals.request0 text record response garbage)
      (Pc.getaddrinfo locals).now
  /-- The host is resolved. -/
  | resolved (locals : Locals) (host : CString) (named : locals.host = some host) :
    Step (Pc.getaddrinfo locals).now (.getaddrinfo host true) (Pc.socket locals).now
  /-- The host is not resolved. -/
  | unresolved (locals : Locals) (host : CString) (named : locals.host = some host) :
    Step (Pc.getaddrinfo locals).now (.getaddrinfo host false)
      (notConnected locals [.free .unsetAddrinfo])
  /-- No socket is made. -/
  | noSocket (locals : Locals) :
    Step (Pc.socket locals).now (.socket none) (notConnected locals [])
  /-- A socket is made. -/
  | socket (locals : Locals) (dest : Fd) :
    Step (Pc.socket locals).now (.socket (some dest)) (Pc.connect locals dest).now
  /-- The connection is made. -/
  | connected (locals : Locals) (dest : Fd) :
    Step (Pc.connect locals dest).now (.connect dest true) (Pc.writeRequest locals dest).now
  /-- The connection is refused. -/
  | refused (locals : Locals) (dest : Fd) :
    Step (Pc.connect locals dest).now (.connect dest false)
      (notConnected locals [.close dest, .free .addrinfo])
  /-- The request is not written. -/
  | requestFailed (locals : Locals) (dest : Fd) :
    Step (Pc.writeRequest locals dest).now (.write .remote dest locals.request.bytes none)
      (writeFailed locals dest)
  /-- The request is written. -/
  | requestSent (locals : Locals) (dest : Fd) (count : Nat) :
    Step (Pc.writeRequest locals dest).now (.write .remote dest locals.request.bytes (some count))
      (Pc.read locals dest 0).now
  /-- A chunk is read. -/
  | chunk (locals : Locals) (dest : Fd) (stored : Nat) (byte : UInt8) (rest : List UInt8) :
    Step (Pc.read locals dest stored).now (.read dest (some (byte :: rest)))
      (Pc.writeClient locals dest stored (byte :: rest)).now
  /-- The stream has ended. -/
  | ended (locals : Locals) (dest : Fd) (stored : Nat) :
    Step (Pc.read locals dest stored).now (.read dest (some [])) (Pc.push locals dest).now
  /-- The read failed, and the loop ends as at the end of the stream. -/
  | readFailed (locals : Locals) (dest : Fd) (stored : Nat) :
    Step (Pc.read locals dest stored).now (.read dest none) (Pc.push locals dest).now
  /-- A chunk is not written. -/
  | chunkFailed (locals : Locals) (dest : Fd) (stored : Nat) (chunk : List UInt8) :
    Step (Pc.writeClient locals dest stored chunk).now
      (.write .client locals.clientSocket chunk none) (writeFailed locals dest)
  /-- A chunk is written. -/
  | chunkSent (locals : Locals) (dest : Fd) (stored : Nat) (chunk : List UInt8) (count : Nat) :
    Step (Pc.writeClient locals dest stored chunk).now
      (.write .client locals.clientSocket chunk (some count))
      (Pc.addResponse locals dest stored chunk).now
  /-- A chunk is stored. -/
  | addResponse (locals : Locals) (dest : Fd) (stored : Nat) (chunk : List UInt8)
    (inside : stored + chunk.length ≤ cacheBufferSize) :
    Step (Pc.addResponse locals dest stored chunk).now (.addResponse chunk)
      (Pc.read locals dest (stored + chunk.length)).now
  /-- The record is pushed. -/
  | push (locals : Locals) (dest : Fd) :
    Step (Pc.push locals dest).now .push (finish locals dest)
  /-- The handler posts and returns. -/
  | post : Step Pc.post.now .post Pc.done.now
  /-- The handler returns. -/
  | ret : Step Pc.ret.now .ret Pc.done.now

/-- The steps at a program point. -/
theorem Pc.step_of_next {pc : Pc} {event : Event} {after : Handler}
    (step : pc.next event = some after) : Handler.Step pc.now event after := by
  unfold Pc.next at step
  split at step
  all_goals simp only [Option.ite_none_right_eq_some, Option.some.injEq, reduceCtorEq] at step
  case h_1 => exact step ▸ .loadSocket _
  case h_2 => exact step ▸ .loadRequest _ _
  case h_3 =>
    obtain ⟨⟨rfl, fits⟩, rfl⟩ := step
    exact .strcpy _ _ _ _ fits
  case h_4 =>
    obtain ⟨rfl, step⟩ := step
    split at step
    · exact Option.some.inj step ▸ .miss _
    · exact Option.some.inj step ▸ .hit _ _
  case h_5 =>
    obtain ⟨⟨rfl, rfl⟩, rfl⟩ := step
    exact .writeCached _ _ _
  case h_6 => exact step ▸ .reload _ _
  case h_7 =>
    obtain ⟨rfl, rfl⟩ := step
    exact .fetch _ _ _ _ _
  case h_8 =>
    obtain ⟨named, step⟩ := step
    split at step
    · rename_i ok
      exact ok ▸ Option.some.inj step ▸ .resolved _ _ named
    · rename_i failed
      rw [Bool.not_eq_true] at failed
      exact failed ▸ Option.some.inj step ▸ .unresolved _ _ named
  case h_9 => exact step ▸ .noSocket _
  case h_10 => exact step ▸ .socket _ _
  case h_11 =>
    obtain ⟨rfl, step⟩ := step
    split at step
    · rename_i ok
      exact ok ▸ Option.some.inj step ▸ .connected _ _
    · rename_i failed
      rw [Bool.not_eq_true] at failed
      exact failed ▸ Option.some.inj step ▸ .refused _ _
  case h_12 =>
    obtain ⟨⟨rfl, rfl⟩, step⟩ := step
    split at step
    · exact Option.some.inj step ▸ .requestFailed _ _
    · exact Option.some.inj step ▸ .requestSent _ _ _
  case h_13 =>
    obtain ⟨rfl, step⟩ := step
    split at step
    · exact Option.some.inj step ▸ .chunk _ _ _ _ _
    · exact Option.some.inj step ▸ .ended _ _ _
    · exact Option.some.inj step ▸ .readFailed _ _ _
  case h_14 =>
    obtain ⟨⟨rfl, rfl⟩, step⟩ := step
    split at step
    · exact Option.some.inj step ▸ .chunkFailed _ _ _ _
    · exact Option.some.inj step ▸ .chunkSent _ _ _ _ _
  case h_15 =>
    obtain ⟨⟨rfl, inside⟩, rfl⟩ := step
    exact .addResponse _ _ _ _ inside
  case h_16 => exact step ▸ .push _ _
  case h_17 => exact step ▸ .post
  case h_18 => exact step ▸ .ret

/-- A handler makes no step but these. -/
theorem Handler.step_of_next {handler after : Handler} {event : Event}
    (step : handler.next event = some after) : Handler.Step handler event after := by
  obtain ⟨todo, pc⟩ := handler
  cases todo with
  | nil => exact Pc.step_of_next step
  | cons call rest =>
    simp only [Handler.next] at step
    split at step
    · rename_i made
      simp only [Option.ite_none_right_eq_some, Option.some.injEq] at step
      obtain ⟨rfl, rfl⟩ := step
      exact .cleanup _ _ _
    · exact nomatch step

end NsuOs.Proxy
