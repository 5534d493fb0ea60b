import NsuOs.Proxy.Permits
import NsuOs.Proxy.Relay

/-!
# What the client and the remote server receive

A handler that returns without taking an error branch has either looked its request up in vain and
relayed the response, or found it and written the copy. Each call of `write` is made once with the
whole block, so what arrives is the whole response exactly when every call accepts all its bytes,
the stream was read to its end and, for a cached response, no byte behind a zero byte was lost.
-/
namespace NsuOs.Proxy

open NsuOs.Run

namespace Tally

/-- The bytes accepted by some writes. -/
def accepted (writes : List (List UInt8 × Nat)) : List UInt8 :=
  writes.flatMap fun write => write.1.take write.2

/-- The bytes the client accepted. -/
def toClient (tally : Tally) : List UInt8 := accepted (tally.cached ++ tally.client)

/-- The bytes the remote server accepted. -/
def toRemote (tally : Tally) : List UInt8 := accepted tally.remote

/-- No write accepts more than it is given. -/
def Bounded (tally : Tally) : Prop :=
  ∀ write ∈ tally.cached ++ tally.remote ++ tally.client, write.2 ≤ write.1.length

/-- Every write accepts all its bytes. -/
def Full (tally : Tally) : Prop :=
  ∀ write ∈ tally.cached ++ tally.remote ++ tally.client, write.2 = write.1.length

/-- A handler that missed has sent the request in one write and each chunk in one write. -/
def Missed (tally : Tally) (req : CString) : Prop :=
  ∃ count writes, tally = ⟨[(req, Option.none)], [], [(req.bytes, count)], writes,
    writes.map Prod.fst, writes.map Prod.fst⟩

/-- A handler that hit has sent the copy in one write. -/
def Hit (tally : Tally) : Prop :=
  ∃ req copy count, tally = ⟨[(req, some copy)], [(copy, count)], [], [], [], []⟩

end Tally

/-- The event takes an error branch. -/
def Event.errorBranch : Event → Bool
  | .read _ _ => false
  | event => event.failed

/-- The tally of a handler that has taken no error branch, by its program point. -/
def Pc.Smooth (tally : Tally) : Pc → Prop
  | .loadSocket | .loadRequest _ | .strcpy _ _ | .find _ => tally = Tally.none
  | .writeCached locals copy => tally = ⟨[(locals.request, some copy)], [], [], [], [], []⟩
  | .reload _ | .ret => tally.Hit
  | .fetch locals | .getaddrinfo locals | .socket locals | .connect locals _
  | .writeRequest locals _ => tally = ⟨[(locals.request, none)], [], [], [], [], []⟩
  | .read locals _ _ | .push locals _ => tally.Missed locals.request
  | .writeClient locals _ _ chunk => ∃ count writes, tally =
      ⟨[(locals.request, none)], [], [(locals.request.bytes, count)], writes,
        writes.map Prod.fst ++ [chunk], writes.map Prod.fst⟩
  | .addResponse locals _ _ chunk => ∃ count writes last, tally =
      ⟨[(locals.request, none)], [], [(locals.request.bytes, count)], writes ++ [(chunk, last)],
        writes.map Prod.fst ++ [chunk], writes.map Prod.fst⟩
  | .post => ∃ req, tally.Missed req
  | .done => tally.Hit ∨ ∃ req, tally.Missed req

/-- A step that takes no error branch. -/
theorem Handler.Step.smooth {handler after : Handler} {event : Event} {tally : Tally}
    (step : Handler.Step handler event after) (passed : event.errorBranch = false)
    (before : handler.pc.Smooth tally) : after.pc.Smooth (tally.add event) := by
  cases step
  case cleanup call rest pc => exact before
  case miss locals =>
    rw [show tally = Tally.none from before]
    rfl
  case hit locals copy =>
    rw [show tally = Tally.none from before]
    rfl
  case writeCached locals copy sent =>
    cases sent with
    | none => exact nomatch passed
    | some count =>
      rw [show tally = _ from before]
      exact ⟨_, _, count, rfl⟩
  case requestSent locals dest count =>
    rw [show tally = _ from before]
    exact ⟨count, [], rfl⟩
  case chunk locals dest stored byte rest =>
    obtain ⟨count, writes, rfl⟩ := before
    exact ⟨count, writes, rfl⟩
  case chunkSent locals dest stored chunk count =>
    obtain ⟨sent, writes, rfl⟩ := before
    exact ⟨sent, writes, count, rfl⟩
  case addResponse locals dest stored chunk inside =>
    obtain ⟨sent, writes, last, rfl⟩ := before
    exact ⟨sent, writes ++ [(chunk, last)], by simp [Tally.add]⟩
  case push locals dest => exact ⟨_, before⟩
  case post => exact Or.inr before
  case ret => exact Or.inl before
  all_goals first | exact before | exact nomatch passed

/-- A handler that takes no error branch keeps this tally. -/
theorem Handler.smooth_run {events : List Event} {handler : Handler}
    (run : exec Handler.next Handler.start events = some handler) :
    (∀ event ∈ events, event.errorBranch = false) → handler.pc.Smooth (Tally.of events) := by
  refine exec_induct (motive := fun events handler => (∀ event ∈ events,
    event.errorBranch = false) → handler.pc.Smooth (Tally.of events)) (fun _ => rfl) ?_ run
  intro events middle event finish _ before step passed
  rw [Tally.of_snoc]
  refine (Handler.step_of_next step).smooth (passed event (by simp)) (before ?_)
  exact fun other member => passed other (List.mem_append_left _ member)

namespace Tally

/-- One write at most accepts its bytes, so the bytes accepted are at most those given. -/
theorem length_accepted_le (writes : List (List UInt8 × Nat)) :
    (accepted writes).length ≤ (writes.map Prod.fst).flatten.length := by
  induction writes with
  | nil => exact Nat.le_refl _
  | cons write rest ih =>
    simp only [accepted, List.flatMap_cons, List.length_append, List.length_take, List.map_cons,
      List.flatten_cons] at ih ⊢
    omega

/-- Everything given is accepted exactly when every write accepts all its bytes. -/
theorem accepted_eq_iff (writes : List (List UInt8 × Nat))
    (bounded : ∀ write ∈ writes, write.2 ≤ write.1.length) :
    accepted writes = (writes.map Prod.fst).flatten ↔
      ∀ write ∈ writes, write.2 = write.1.length := by
  constructor
  · intro same
    induction writes with
    | nil => exact nofun
    | cons write rest ih =>
      have first := bounded write List.mem_cons_self
      have lengths := congrArg List.length same
      have others := length_accepted_le rest
      simp only [accepted, List.flatMap_cons, List.map_cons, List.flatten_cons, List.length_append,
        List.length_take] at lengths others
      have whole : write.2 = write.1.length := by omega
      simp only [accepted, List.flatMap_cons, List.map_cons, List.flatten_cons, whole,
        List.take_length] at same
      have tail := ih (fun other member => bounded other (List.mem_cons_of_mem _ member))
        (List.append_cancel_left same)
      intro other member
      rcases List.mem_cons.mp member with rfl | later
      · exact whole
      · exact tail other later
  · intro full
    have takes : ∀ write ∈ writes, write.1.take write.2 = write.1 := by
      intro write member
      rw [full write member, List.take_length]
    rw [accepted, List.flatMap_def, List.map_congr_left takes]

/-- The process lets no write accept more than it is given. -/
theorem Bounded.add {tally : Tally} (bounded : tally.Bounded) {shared after : Shared} {i : Nat}
    {event : Event} (performed : shared.perform i event = some after) :
    (tally.add event).Bounded := by
  cases event with
  | write target fd bytes sent =>
    cases sent with
    | none => cases target <;> exact bounded
    | some count =>
      simp only [Shared.perform, Option.ite_none_right_eq_some] at performed
      have within : count ≤ bytes.length := performed.1.2.1
      cases target <;>
        simp only [Bounded, Tally.add, List.mem_append, List.mem_singleton] at bounded ⊢
      all_goals
        intro write member
        by_cases last : write = (bytes, count)
        · rw [last]
          exact within
        · exact bounded write (by simpa [last] using member)
  | read fd got =>
    cases got with
    | none => exact bounded
    | some bytes => cases bytes <;> exact bounded
  | _ => exact bounded

end Tally

/-- The stream of the remote server begins with the chunks read, and is those chunks when its end
was read. -/
def FromStream (stream : List UInt8) (events : List Event) : Prop :=
  ∃ rest, stream = (Tally.of events).read.flatten ++ rest ∧ (Ended events → rest = [])

namespace Process

variable {process after : Process} {server : Fd} {mem : Memory} {cache : Ptr} {garbage : Cache}
  {trace : List Label}

/-- No write of a run accepts more than it is given. -/
theorem bounded_run (run : exec next (start server mem cache garbage) trace = some process)
    (i : Nat) : (Tally.of (eventsOf i trace)).Bounded := by
  refine exec_induct (motive := fun labels _ => (Tally.of (eventsOf i labels)).Bounded)
    (fun _ member => nomatch member) ?_ run
  intro labels middle label finish _ ih step
  cases label with
  | acceptor event =>
    rw [eventsOf_acceptor]
    exact ih
  | thread j event =>
    obtain ⟨thread, handler, shared, -, -, performed, -⟩ := next_thread step
    by_cases own : j = i
    · rw [own, eventsOf_self, Tally.of_snoc]
      exact ih.add performed
    · rw [eventsOf_other labels event own]
      exact ih

/-- The handler that passed a record to `push_record`. -/
def PushedBy (first : Process) (trace : List Label) (i : Nat) (fetch : Fetch) : Prop :=
  ∃ earlier later before, trace = earlier ++ .thread i .push :: later ∧
    exec next first earlier = some before ∧ before.shared.store.pending i = some fetch

/-- A pushed record carries every chunk its handler read in the whole run. -/
theorem PushedBy.chunks (run : exec next (start server mem cache garbage) trace = some process)
    {i : Nat} {fetch : Fetch} {earlier later : List Label} (whole : trace = earlier ++ later)
    (pushed : PushedBy (start server mem cache garbage) earlier i fetch) :
    fetch.chunks = (Tally.of (eventsOf i trace)).read := by
  obtain ⟨before, between, state, rfl, reached, pending⟩ := pushed
  rw [List.append_assoc, List.cons_append] at whole
  obtain ⟨after, step, -⟩ := exec_step (whole ▸ run) reached
  obtain ⟨chunks, -⟩ := at_push reached pending step
  rw [chunks, whole]
  exact congrArg Tally.read (around_push (whole ▸ run) reached).1.symm

/-- What a handler received for its client is exactly the remote server's response: its own on a
miss, together with the request it sent, and on a hit the one of the handler that stored the
record. -/
structure Delivered (first : Process) (trace : List Label) (streams : Nat → List UInt8) (i : Nat) :
    Prop where
  /-- The response and the request after a miss. -/
  miss : ∀ req, (req, none) ∈ (Tally.of (eventsOf i trace)).found →
    (Tally.of (eventsOf i trace)).toClient = streams i ∧
      (Tally.of (eventsOf i trace)).toRemote = req.bytes
  /-- The response after a hit. That the record was stored for the same request is no part of this;
  `Store.SameRequest` says it. -/
  hit : ∀ earlier req copy later before,
    trace = earlier ++ .thread i (.find req (some copy)) :: later →
    exec next first earlier = some before → ∃ p len buffer fetch j,
      before.shared.store.find req = .hit p len buffer ∧ before.shared.store.PushedAt p fetch ∧
      PushedBy first earlier j fetch ∧ (Tally.of (eventsOf i trace)).toClient = streams j

/-- Every write accepted all its bytes, the stream was read as a whole, and a hit was on a record
that a handler stored, without a byte other than zero behind a zero byte. -/
structure Undisturbed (first : Process) (garbage : Cache) (trace : List Label)
    (streams : Nat → List UInt8) (i : Nat) : Prop where
  /-- No short write. -/
  full : (Tally.of (eventsOf i trace)).Full
  /-- After a miss the whole stream was read. -/
  miss : ∀ req, (req, none) ∈ (Tally.of (eventsOf i trace)).found →
    (Tally.of (eventsOf i trace)).read.flatten = streams i
  /-- On a hit the handler that stored the record had read the whole stream, which `strncpy` copies
  as it is. -/
  hit : ∀ earlier req copy later before,
    trace = earlier ++ .thread i (.find req (some copy)) :: later →
    exec next first earlier = some before → garbage.request ≠ hash req ∧ ∃ fetch j,
      FirstWins.lookup Fetch.key (hash req) before.shared.store.pushed = some fetch ∧
      PushedBy first earlier j fetch ∧
      (Tally.of (eventsOf j trace)).read.flatten = streams j ∧ NulPadded (streams j)

end Process

/-- The lookups of a tally are the lookups among the events. -/
theorem Tally.mem_found {events : List Event} {req : CString} {found : Option (List UInt8)} :
    (req, found) ∈ (Tally.of events).found ↔ .find req found ∈ events := by
  induction events using List.reverseRecOn with
  | nil => simp [Tally.of, Tally.none]
  | append_singleton events event ih =>
    rw [Tally.of_snoc, List.mem_append, List.mem_singleton, ← ih]
    cases event with
    | find req' found' => simp [Tally.add]
    | write target fd bytes sent => cases target <;> cases sent <;> simp [Tally.add]
    | read fd got =>
      cases got with
      | none => simp [Tally.add]
      | some bytes => cases bytes <;> simp [Tally.add]
    | _ => simp [Tally.add]

namespace Tally

variable {tally : Tally} {req : CString} {stream body rest : List UInt8}

/-- A list that is no longer than its beginning is its beginning. -/
theorem begins_eq (begins : stream = body ++ rest) (short : stream.length ≤ body.length) :
    body = stream := by
  have lengths := congrArg List.length begins
  rw [List.length_append] at lengths
  have nothing : rest = [] := List.eq_nil_of_length_eq_zero (by omega)
  rw [begins, nothing, List.append_nil]

/-- After a miss the whole stream and the whole request arrive exactly when the whole stream was
read and no write was short. -/
theorem Missed.whole_iff (missed : tally.Missed req) (bounded : tally.Bounded)
    (begins : stream = tally.read.flatten ++ rest) :
    (tally.toClient = stream ∧ tally.toRemote = req.bytes) ↔
      (tally.Full ∧ tally.read.flatten = stream) := by
  obtain ⟨count, writes, rfl⟩ := missed
  have request := accepted_eq_iff [(req.bytes, count)]
    fun write member => bounded write (by simpa using Or.inl member)
  have chunks := accepted_eq_iff writes
    fun write member => bounded write (by simpa using Or.inr member)
  simp only [List.map_cons, List.map_nil, List.flatten_cons, List.flatten_nil,
    List.append_nil] at request
  simp only [toClient, toRemote, List.nil_append]
  constructor
  · rintro ⟨client, remote⟩
    have whole : (writes.map Prod.fst).flatten = stream := by
      refine begins_eq begins ?_
      rw [← client]
      exact length_accepted_le writes
    refine ⟨?_, whole⟩
    intro write member
    rcases List.mem_append.mp member with first | later
    · exact request.mp remote write first
    · exact chunks.mp (client.trans whole.symm) write later
  · rintro ⟨full, whole⟩
    refine ⟨?_, request.mpr fun write member => full write (List.mem_append_left _ member)⟩
    rw [← whole]
    exact chunks.mpr fun write member => full write (List.mem_append_right _ member)

/-- After a hit on a record with this body the whole stream arrives exactly when the body is the
stream, has nothing behind a zero byte and no write was short. -/
theorem hit_whole_iff {count : Nat}
    (hit : tally = ⟨[(req, some (cutAtNul body))], [(cutAtNul body, count)], [], [], [], []⟩)
    (bounded : tally.Bounded) (begins : stream = body ++ rest) :
    tally.toClient = stream ↔ tally.Full ∧ body = stream ∧ NulPadded stream := by
  subst hit
  have copied := accepted_eq_iff [(cutAtNul body, count)]
    fun write member => bounded write (by simpa using member)
  have short := length_accepted_le [(cutAtNul body, count)]
  simp only [List.map_cons, List.map_nil, List.flatten_cons, List.flatten_nil,
    List.append_nil] at copied short
  simp only [toClient, Full, List.append_nil]
  constructor
  · intro client
    have whole : body = stream := by
      refine begins_eq begins ?_
      rw [← client, ← length_cutAtNul body]
      exact short
    have taken : (cutAtNul body).take count = body := by
      refine Eq.trans ?_ (client.trans whole.symm)
      simp [accepted]
    have lengths := congrArg List.length taken
    rw [List.length_take, length_cutAtNul] at lengths
    have same : cutAtNul body = body := by
      rwa [List.take_of_length_le (by rw [length_cutAtNul]; omega)] at taken
    refine ⟨copied.mp (by rw [client, same, whole]), whole, ?_⟩
    rw [← whole]
    exact (cutAtNul_eq_self body).mp same
  · rintro ⟨full, rfl, padded⟩
    rw [copied.mpr full]
    exact (cutAtNul_eq_self body).mpr padded

end Tally

namespace Process

variable {process before : Process} {server : Fd} {mem : Memory} {cache : Ptr} {garbage : Cache}
  {trace earlier later : List Label} {i : Nat} {req : CString} {copy : List UInt8}

/-- A lookup finds what the cache holds for the request. -/
theorem find_step {after : Process} {found : Option (List UInt8)}
    (step : before.next (.thread i (.find req found)) = some after) :
    found = (before.shared.store.find req).written := by
  obtain ⟨thread, handler, shared, -, -, performed, -⟩ := next_thread step
  simp only [Shared.perform, Option.ite_none_right_eq_some] at performed
  exact performed.1.2

/-- A lookup that hits a record which a handler stored finds what that handler read, cut at the
first zero byte. -/
theorem find_stored (unused : mem.Unused cache)
    (run : exec next (start server mem cache garbage)
      (earlier ++ .thread i (.find req (some copy)) :: later) = some process)
    (reached : exec next (start server mem cache garbage) earlier = some before) {fetch : Fetch}
    {j : Nat} (unmatched : garbage.request ≠ hash req)
    (first : FirstWins.lookup Fetch.key (hash req) before.shared.store.pushed = some fetch)
    (pushed : PushedBy (start server mem cache garbage) earlier j fetch) :
    copy = cutAtNul (Tally.of (eventsOf j
      (earlier ++ .thread i (.find req (some copy)) :: later))).read.flatten := by
  obtain ⟨after, step, -⟩ := exec_step run reached
  have inv := store_inv unused reached
  have found := find_step step
  rw [(inv.written_first unmatched first).2] at found
  rw [← pushed.chunks run rfl]
  exact Option.some.inj found

end Process

/-- A miss is a lookup of the one request. -/
theorem Tally.Missed.lookup {tally : Tally} {req req' : CString}
    {found : Option (List UInt8)} (missed : tally.Missed req)
    (member : (req', found) ∈ tally.found) : req' = req ∧ found = Option.none := by
  obtain ⟨count, writes, rfl⟩ := missed
  simpa using member

/-- A hit is a lookup of the one request. -/
theorem Tally.Hit.lookup {tally : Tally} {req' : CString} {found : Option (List UInt8)}
    (hit : tally.Hit) (member : (req', found) ∈ tally.found) :
    ∃ copy count, found = some copy ∧
      tally = ⟨[(req', some copy)], [(copy, count)], [], [], [], []⟩ := by
  obtain ⟨req, copy, count, rfl⟩ := hit
  simp only [List.mem_singleton, Prod.mk.injEq] at member
  obtain ⟨rfl, rfl⟩ := member
  exact ⟨copy, count, rfl, rfl⟩

namespace Process

variable {process first : Process} {server : Fd} {mem : Memory} {cache : Ptr} {garbage : Cache}
  {trace : List Label} {streams : Nat → List UInt8} {i : Nat}

/-- The lookups of a handler are among its tally. -/
theorem found_of_split {earlier later : List Label} {req : CString} {found : Option (List UInt8)}
    (split : trace = earlier ++ .thread i (.find req found) :: later) :
    (req, found) ∈ (Tally.of (eventsOf i trace)).found := by
  rw [Tally.mem_found, mem_eventsOf, split]
  exact List.mem_append_right earlier List.mem_cons_self

/-- After a miss. -/
theorem delivered_missed {req : CString} (missed : (Tally.of (eventsOf i trace)).Missed req)
    (bounded : (Tally.of (eventsOf i trace)).Bounded)
    (upstream : FromStream (streams i) (eventsOf i trace)) :
    Delivered first trace streams i ↔ Undisturbed first garbage trace streams i := by
  obtain ⟨rest, begins, -⟩ := upstream
  have whole := missed.whole_iff bounded begins
  have looked : (req, none) ∈ (Tally.of (eventsOf i trace)).found := by
    obtain ⟨count, writes, isMissed⟩ := missed
    rw [isMissed]
    exact List.mem_singleton_self _
  have noHit : ∀ earlier req copy later,
      trace ≠ earlier ++ .thread i (.find req (some copy)) :: later := by
    intro earlier req copy later split
    exact nomatch (missed.lookup (found_of_split split)).2
  constructor
  · intro delivered
    obtain ⟨full, read⟩ := whole.mp (delivered.miss req looked)
    exact ⟨full, fun _ _ => read,
      fun earlier req copy later _ split => absurd split (noHit earlier req copy later)⟩
  · intro undisturbed
    have arrived := whole.mpr ⟨undisturbed.full, undisturbed.miss req looked⟩
    refine ⟨?_, fun earlier req copy later _ split => absurd split (noHit earlier req copy later)⟩
    intro req' member
    rw [(missed.lookup member).1]
    exact arrived

/-- On a hit of a record that handler `j` stored, its stream arrives exactly when no write was short
and `j` had read the whole stream, with nothing behind a zero byte. -/
theorem hit_stored_iff (unused : mem.Unused cache)
    (run : exec next (start server mem cache garbage) trace = some process)
    (hit : (Tally.of (eventsOf i trace)).Hit)
    (upstream : ∀ j, FromStream (streams j) (eventsOf j trace))
    {earlier later : List Label} {req : CString} {copy : List UInt8} {before : Process}
    {fetch : Fetch} {j : Nat}
    (split : trace = earlier ++ .thread i (.find req (some copy)) :: later)
    (reached : exec next (start server mem cache garbage) earlier = some before)
    (unmatched : garbage.request ≠ hash req)
    (first : FirstWins.lookup Fetch.key (hash req) before.shared.store.pushed = some fetch)
    (pushed : PushedBy (start server mem cache garbage) earlier j fetch) :
    (Tally.of (eventsOf i trace)).toClient = streams j ↔ (Tally.of (eventsOf i trace)).Full ∧
      (Tally.of (eventsOf j trace)).read.flatten = streams j ∧ NulPadded (streams j) := by
  obtain ⟨copy', count, same, tally⟩ := hit.lookup (found_of_split split)
  obtain rfl := Option.some.inj same
  obtain ⟨rest, begins, -⟩ := upstream j
  have stored := find_stored unused (split ▸ run) reached unmatched first pushed
  rw [← split] at stored
  exact Tally.hit_whole_iff (stored ▸ tally) (bounded_run run i) begins

/-- The response delivered on a hit is the one of the first handler that stored the hash. -/
theorem Delivered.first_pushed (unused : mem.Unused cache)
    (delivered : Delivered (start server mem cache garbage) trace streams i)
    {earlier later : List Label} {req : CString} {copy : List UInt8} {before : Process}
    (split : trace = earlier ++ .thread i (.find req (some copy)) :: later)
    (reached : exec next (start server mem cache garbage) earlier = some before) :
    garbage.request ≠ hash req ∧ ∃ fetch j,
      FirstWins.lookup Fetch.key (hash req) before.shared.store.pushed = some fetch ∧
      PushedBy (start server mem cache garbage) earlier j fetch ∧
      (Tally.of (eventsOf i trace)).toClient = streams j := by
  obtain ⟨p, len, buffer, fetch, j, found, here, pushed, client⟩ :=
    delivered.hit earlier req copy later before split reached
  have inv := store_inv unused reached
  obtain ⟨unmatched, fetch', first, rfl, -, -⟩ := inv.find_hit found (inv.pushedAt_ne_head here)
  obtain rfl := inv.pushedAt_unique here (inv.pushedAt_first first).2
  exact ⟨unmatched, fetch, j, first, pushed, client⟩

/-- A handler that hit has a lookup in the run. -/
theorem split_of_hit (run : exec next (start server mem cache garbage) trace = some process)
    (hit : (Tally.of (eventsOf i trace)).Hit) : ∃ earlier req copy later before,
      trace = earlier ++ .thread i (.find req (some copy)) :: later ∧
      exec next (start server mem cache garbage) earlier = some before := by
  obtain ⟨req, copy, count, tally⟩ := hit
  have member : (req, some copy) ∈ (Tally.of (eventsOf i trace)).found := by
    rw [tally]
    exact List.mem_singleton_self _
  obtain ⟨earlier, later, before, after, split, reached, -⟩ :=
    exec_member run (mem_eventsOf.mp (Tally.mem_found.mp member))
  exact ⟨earlier, req, copy, later, before, split, reached⟩

/-- After a hit. -/
theorem delivered_hit (unused : mem.Unused cache)
    (run : exec next (start server mem cache garbage) trace = some process)
    (hit : (Tally.of (eventsOf i trace)).Hit)
    (upstream : ∀ j, FromStream (streams j) (eventsOf j trace)) :
    Delivered (start server mem cache garbage) trace streams i ↔
      Undisturbed (start server mem cache garbage) garbage trace streams i := by
  have noMiss : ∀ req, (req, none) ∉ (Tally.of (eventsOf i trace)).found := by
    intro req member
    obtain ⟨copy, count, isSome, -⟩ := hit.lookup member
    exact nomatch isSome
  constructor
  · intro delivered
    refine ⟨?_, fun req member => absurd member (noMiss req), ?_⟩
    · obtain ⟨earlier, req, copy, later, before, split, reached⟩ := split_of_hit run hit
      obtain ⟨unmatched, fetch, j, first, pushed, client⟩ :=
        delivered.first_pushed unused split reached
      exact ((hit_stored_iff unused run hit upstream split reached unmatched first pushed).mp
        client).1
    · intro earlier req copy later before split reached
      obtain ⟨unmatched, fetch, j, first, pushed, client⟩ :=
        delivered.first_pushed unused split reached
      obtain ⟨-, read, padded⟩ := (hit_stored_iff unused run hit upstream split reached
        unmatched first pushed).mp client
      exact ⟨unmatched, fetch, j, first, pushed, read, padded⟩
  · intro undisturbed
    refine ⟨fun req member => absurd member (noMiss req), ?_⟩
    intro earlier req copy later before split reached
    obtain ⟨unmatched, fetch, j, first, pushed, read, padded⟩ :=
      undisturbed.hit earlier req copy later before split reached
    have inv := store_inv unused reached
    have client := (hit_stored_iff unused run hit upstream split reached unmatched first
      pushed).mpr ⟨undisturbed.full, read, padded⟩
    exact ⟨_, _, _, fetch, j, inv.find_first unmatched first, (inv.pushedAt_first first).2, pushed,
      client⟩

end Process

open Process

/-- A handler that returns without an error branch has passed on the whole response and the whole
request exactly when it was undisturbed. -/
theorem delivered_iff {server : Fd} {mem : Memory} {cache : Ptr} {garbage : Cache}
    {trace : List Label} {process : Process} {i : Nat} {thread : Thread}
    {streams : Nat → List UInt8} (unused : mem.Unused cache)
    (run : exec next (start server mem cache garbage) trace = some process)
    (here : process.threads[i]? = some thread) (returned : thread.handler.running = false)
    (passed : ∀ event ∈ eventsOf i trace, event.errorBranch = false)
    (upstream : ∀ j, FromStream (streams j) (eventsOf j trace)) :
    Delivered (start server mem cache garbage) trace streams i ↔
      Undisturbed (start server mem cache garbage) garbage trace streams i := by
  have smooth := Handler.smooth_run (handler_run run here) passed
  rw [Handler.done_of_returned returned] at smooth
  rcases smooth with hit | ⟨req, missed⟩
  · exact delivered_hit unused run hit upstream
  · exact delivered_missed missed (bounded_run run i) (upstream i)

/-- Every stream is a source of what was read when one handler alone was created and its own is. -/
theorem fromStream_alone {server : Fd} {mem : Memory} {cache : Ptr} {garbage : Cache}
    {trace : List Label} {process : Process} {stream : List UInt8}
    (run : exec next (start server mem cache garbage) trace = some process)
    (alone : process.threads.length = 1) (own : FromStream stream (eventsOf 0 trace)) (j : Nat) :
    FromStream stream (eventsOf j trace) := by
  cases j with
  | zero => exact own
  | succ j =>
    rw [eventsOf_uncreated run (by omega)]
    exact ⟨stream, rfl, fun ⟨_, member⟩ => nomatch member⟩

/-- A client is served one chunk and accepts so many bytes of it. -/
def servedShort (count : Nat) : List Label :=
  acceptOne ⟨4, 0⟩ (requestFor [65]).bytes ++ lookUp 0 ⟨4, 0⟩ (requestFor [65]) none ++
    reach 0 ⟨4, 0⟩ (requestFor [65]) 2 5 ++
    [.thread 0 (.write .remote 5 (requestFor [65]).bytes (some (requestFor [65]).strlen))] ++
    relay 0 ⟨4, 0⟩ 5 [104, 105] count ++ [.thread 0 (.read 5 (some []))] ++ leave 0 ⟨4, 0⟩ 5

/-- Its handler returns without an error branch and has read the whole stream. -/
theorem servedShort_run (count : Nat) (within : count = 1 ∨ count = 2) :
    ∃ process thread, exec next (start 3 Heap.empty 1 ⟨7, 0, 0, 0⟩) (servedShort count) =
      some process ∧ process.threads[0]? = some thread ∧ thread.handler.running = false ∧
      (∀ event ∈ eventsOf 0 (servedShort count), event.errorBranch = false) ∧
      ∀ j, FromStream [104, 105] (eventsOf j (servedShort count)) := by
  have outcome : (exec next (start 3 Heap.empty 1 ⟨7, 0, 0, 0⟩) (servedShort count)).map
      (fun process => process.threads.map (·.handler.running)) = some [false] := by
    rcases within with rfl | rfl <;> decide +kernel
  obtain ⟨process, run, ends⟩ := Option.map_eq_some_iff.mp outcome
  obtain ⟨thread, threads, returned⟩ := List.map_eq_singleton_iff.mp ends
  refine ⟨process, thread, run, by rw [threads]; rfl, returned, ?_, ?_⟩
  · rcases within with rfl | rfl <;> decide +kernel
  · refine fromStream_alone run (by rw [threads]; rfl) ⟨[], ?_, fun _ => rfl⟩
    rcases within with rfl | rfl <;> decide +kernel

/-- A client that accepts every byte gets the whole response. -/
theorem delivered_served :
    Delivered (start 3 Heap.empty 1 ⟨7, 0, 0, 0⟩) (servedShort 2) (fun _ => [104, 105]) 0 := by
  obtain ⟨process, thread, run, here, returned, passed, upstream⟩ := servedShort_run 2 (Or.inr rfl)
  refine (delivered_iff (by decide) run here returned passed upstream).mpr ⟨?_, ?_, ?_⟩
  · show ∀ write ∈ _, _
    decide +kernel
  · intro req member
    decide +kernel
  · intro earlier req copy later before split reached
    have looked : (Tally.of (eventsOf 0 (servedShort 2))).found = [(requestFor [65], none)] := by
      decide +kernel
    have member := found_of_split split
    rw [looked] at member
    simp at member

/-- A client that accepts one byte of two gets one byte, and its handler returns as usual. -/
theorem delivered_short :
    ∃ process thread, exec next (start 3 Heap.empty 1 ⟨7, 0, 0, 0⟩) (servedShort 1) =
      some process ∧ process.threads[0]? = some thread ∧ thread.handler.running = false ∧
      (∀ event ∈ eventsOf 0 (servedShort 1), event.errorBranch = false) ∧
      (∀ j, FromStream [104, 105] (eventsOf j (servedShort 1))) ∧
      ¬ Delivered (start 3 Heap.empty 1 ⟨7, 0, 0, 0⟩) (servedShort 1) (fun _ => [104, 105]) 0 := by
  obtain ⟨process, thread, run, here, returned, passed, upstream⟩ := servedShort_run 1 (Or.inl rfl)
  refine ⟨process, thread, run, here, returned, passed, upstream, fun delivered => ?_⟩
  have looked : (requestFor [65], none) ∈ (Tally.of (eventsOf 0 (servedShort 1))).found := by
    decide +kernel
  have arrived : (Tally.of (eventsOf 0 (servedShort 1))).toClient = [104] := by
    decide +kernel
  have whole := (delivered.miss _ looked).1
  rw [arrived] at whole
  exact absurd whole (by decide)

end NsuOs.Proxy
