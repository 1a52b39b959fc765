import LeoNet.SessionPool
import LeoNet.RingWindows
import LeoNet.Lib.EventBase

namespace LeoNet

open Memory Loop Machine EventLoop

/-!
# The network service — `leo_net_service.c` under the event loop of `main`

`main` registers the listening socket and enters the loop.  An event that is pending may fire when
its descriptor is ready, and calls its `net_event_…` function, which calls the callback of `main.c`.
All events are persistent.  The logic thread pushes and fetches between two callbacks.  The event
library is any `EventLibrary`; what its calls return is ignored where the source ignores it.

* `newEvents_made` / `netEventAccept_spec` — what an accept does to the event base, and that it is
  defined only when there was memory for both events;
* `netEventRead_of_some` / `netEventWrite_of_some` — the other two functions, as calls on the session
  that is found under the descriptor;
* `onAccept_cases` — what `on_accept` does to the sessions.
-/

/-- `event_cb`: the functions that events call. -/
inductive EventCb where
  | netEventAccept
  | netEventRead
  | netEventWrite
  deriving DecidableEq

/-- What an event is made with: the descriptor and the function.  The flags are
    `EV_READ | EV_PERSIST`, or `EV_WRITE | EV_PERSIST` for `net_event_write`. -/
structure NetEvent where
  fd : ℤ
  cb : EventCb
  deriving DecidableEq

/-- `struct net_rw_event`. -/
structure NetRwEvent where
  evRead : Option EventPtr
  evWrite : Option EventPtr

/-- The number of entries of `net_events`. -/
def netEventsLen : ℕ := 65535

/-- The program in its event loop, with the descriptors that `accept` has returned so far. -/
structure NetService (lib : EventLibrary NetEvent) where
  server : GameServer
  base : lib.Base
  netEvents : Block NetRwEvent
  listenFd : ℤ
  sockets : List ℤ

namespace NetService

variable {lib : EventLibrary NetEvent} (table : UInt8 → UInt32)

/-- `main`, up to its call of `event_base_dispatch`: `net_events` is all null pointers.  Without
    memory for the event of the listening socket, `main` returns; the result of adding the event
    is ignored. -/
def start (lib : EventLibrary NetEvent) (listenFd : ℤ) (mem : SessionPtr → RawSession)
    (heap : Heap) (memory added : Bool) : Option (NetService lib) :=
  let made := lib.new lib.empty ⟨listenFd, .netEventAccept⟩ memory
  (made.1.bind fun e => lib.add made.2 e added).map fun base =>
    { server := .start mem heap
      base
      netEvents := ⟨netEventsLen, fun _ => ⟨none, none⟩⟩
      listenFd
      sockets := [] }

/-- `main` may enter its event loop in this state. -/
def Starts (mem : SessionPtr → RawSession) (heap : Heap) (s : NetService lib) : Prop :=
  ∃ listenFd memory added, start lib listenFd mem heap memory added = some s

/-! ### The functions -/

/-- `net_service_get_evnets(fd)`. -/
def getEvnets (s : NetService lib) (fd : ℤ) : Option NetRwEvent :=
  if 0 ≤ fd then s.netEvents.get fd.toNat else none

/-- Of two events that should both have been made, the one that was made is freed when the other
    was not. -/
def freeUnlessBoth (b : lib.Base) : Option EventPtr → Option EventPtr → Option lib.Base
  | some _, some _ => some b
  | some evRead, none => lib.release b evRead
  | none, some evWrite => lib.release b evWrite
  | none, none => some b

/-- `net_event_accept(listen_fd, …)`: `accept` returned `fd`, there was memory for the read event
    and for the write event, or not, and `event_add` succeeded, or not. -/
def netEventAccept (s : NetService lib) (fd : ℤ) (memRead memWrite added : Bool) (rand : UInt32)
    (row : ℕ → UInt8) : Option (Option SessionPtr × NetService lib) :=
  if fd < 0 then some (none, s)
  else
    let r := lib.new s.base ⟨fd, .netEventRead⟩ memRead
    let w := lib.new r.2 ⟨fd, .netEventWrite⟩ memWrite
    (s.netEvents.set fd.toNat ⟨r.1, w.1⟩).bind fun netEvents =>
    (freeUnlessBoth w.2 r.1 w.1).bind fun base =>
    -- `ne->ev_read` is added whatever became of it
    (r.1.bind fun e => lib.add base e added).bind fun base =>
    (s.server.onAccept fd rand row).map fun g =>
      (g.1, { s with server := g.2, base, netEvents, sockets := fd :: s.sockets })

/-- `net_event_read(fd, …)`. -/
def netEventRead (s : NetService lib) (fd : ℤ) (result : RecvResult) :
    Option (List FrameEvent × NetService lib) :=
  (s.server.onRead table fd result).map fun r => (r.1, { s with server := r.2 })

/-- `session->add_write_event()`; `event_add` succeeds, or not. -/
def addWriteEvent (s : NetService lib) (session : SessionPtr) (added : Bool) :
    Option (NetService lib) :=
  (s.getEvnets (s.server.manager.mallocSession session).socket).bind fun rwEvents =>
    match rwEvents.evWrite with
    | none => some s
    | some e => (lib.add s.base e added).map fun base => { s with base }

/-- `session->del_write_event()`; `event_del` succeeds, or not. -/
def delWriteEvent (s : NetService lib) (session : SessionPtr) (deleted : Bool) :
    Option (NetService lib) :=
  (s.getEvnets (s.server.manager.mallocSession session).socket).bind fun rwEvents =>
    match rwEvents.evWrite with
    | none => some s
    | some e => (lib.del s.base e deleted).map fun base => { s with base }

/-- `net_event_write(fd, …)`: `on_write`, which calls `del_write_event` on the session it found. -/
def netEventWrite (s : NetService lib) (fd : ℤ) (message : MessagePtr) (result : SendResult)
    (deleted : Bool) : Option (Option WriteOutcome × NetService lib) :=
  (s.server.onWrite fd message result).bind fun r =>
    let t : NetService lib := { s with server := r.2 }
    match r.1, s.server.manager.mapSessions fd with
    | some o, some session =>
      (if o.disarmed then t.delWriteEvent session deleted else some t).map fun t => (some o, t)
    | o, _ => some (o, t)

/-- `session->push_to_writequeue(nm)`, called by the logic thread. -/
def pushToWritequeue (s : NetService lib) (session : SessionPtr) (nm : MessagePtr) (added : Bool) :
    Option (Bool × NetService lib) :=
  let r := (s.server.manager.mallocSession session).pushToWritequeue nm
  (if r.1 then s.addWriteEvent session added else some s).map fun t =>
    (r.2.1,
      { t with
        server :=
          { t.server with manager := t.server.manager.modifySession session fun _ => r.2.2 } })

/-- `session->fetch_from_readqueue(nm)`, called by the logic thread: the pointer that left the
    queue, and the program. -/
def fetchFromReadqueue (s : NetService lib) (session : SessionPtr) (nm : MessagePtr) :
    Option MessagePtr × NetService lib :=
  let m := s.server.manager
  let r := (m.mallocSession session).fetchFromReadqueue nm
  (if r.1 then (m.mallocSession session).readQueue.waiting.head? else none,
    { s with server := { s.server with manager := m.modifySession session fun _ => r.2 } })

end NetService

/-! ### The machine -/

/-- A call of one of the threads, with what its system and library calls return. -/
inductive ServiceAct where
  | accept (fd : ℤ) (memRead memWrite added : Bool) (rand : UInt32) (row : ℕ → UInt8)
  | readable (fd : ℤ) (result : RecvResult)
  | writable (fd : ℤ) (message : MessagePtr) (result : SendResult) (deleted : Bool)
  | push (session : SessionPtr) (nm : MessagePtr) (added : Bool)
  | fetch (session : SessionPtr) (nm : MessagePtr)

/-- What the call did: the session claimed, the frames taken, what `on_write` did, whether the
    message was stored, the message that left the read queue. -/
inductive ServiceOut where
  | accepted (session : Option SessionPtr)
  | read (frames : List FrameEvent)
  | wrote (outcome : Option WriteOutcome)
  | pushed (stored : Bool)
  | fetched (removed : Option MessagePtr)

namespace NetService

variable {lib : EventLibrary NetEvent} (table : UInt8 → UInt32)

/-- One call. -/
def step (s : NetService lib) : ServiceAct → Option (ServiceOut × NetService lib)
  | .accept fd memRead memWrite added rand row =>
    (s.netEventAccept fd memRead memWrite added rand row).map fun r => (.accepted r.1, r.2)
  | .readable fd result => (s.netEventRead table fd result).map fun r => (.read r.1, r.2)
  | .writable fd message result deleted =>
    (s.netEventWrite fd message result deleted).map fun r => (.wrote r.1, r.2)
  | .push session nm added =>
    (s.pushToWritequeue session nm added).map fun r => (.pushed r.1, r.2)
  | .fetch session nm =>
    let r := s.fetchFromReadqueue session nm
    some (.fetched r.1, r.2)

/-- What comes from the system.  The event loop calls a function only for an event that is pending.
    `accept` returns an error or a descriptor that is not in use: not that of the standard input,
    and none that it has returned before, since the program closes none. -/
def FromSystem (s : NetService lib) : ServiceAct → Prop
  | .accept fd _ _ _ _ _ =>
    lib.Fires s.base ⟨s.listenFd, .netEventAccept⟩ ∧ (fd < 0 ∨ (0 < fd ∧ fd ∉ s.sockets))
  | .readable fd _ => lib.Fires s.base ⟨fd, .netEventRead⟩
  | .writable fd _ _ _ => lib.Fires s.base ⟨fd, .netEventWrite⟩
  | _ => True

instance [∀ b x, Decidable (lib.Fires b x)] (s : NetService lib) :
    DecidablePred s.FromSystem := fun a =>
  match a with
  | .accept _ _ _ _ _ _ => inferInstanceAs (Decidable (_ ∧ (_ ∨ _)))
  | .readable _ _ => inferInstanceAs (Decidable (lib.Fires _ _))
  | .writable _ _ _ _ => inferInstanceAs (Decidable (lib.Fires _ _))
  | .push _ _ _ => inferInstanceAs (Decidable True)
  | .fetch _ _ => inferInstanceAs (Decidable True)

/-! ### What each call does -/

section Calls

variable {table} {s t : NetService lib} {fd : ℤ}

/-- Both events of a descriptor were made, and the read event was added if `added` says so. -/
structure NewEvents (b : lib.Base) (fd : ℤ) (added : Bool) (evRead evWrite : EventPtr)
    (b' : lib.Base) : Prop where
  read_new : lib.find b evRead = none
  write_new : lib.find b evWrite = none
  ne : evRead ≠ evWrite
  find : lib.find b' = Function.update
    (Function.update (lib.find b) evRead (some ⟨fd, .netEventRead⟩))
    evWrite (some ⟨fd, .netEventWrite⟩)
  fires : ∀ x, lib.Fires b' x ↔ lib.Fires b x ∨ (added = true ∧ x = ⟨fd, .netEventRead⟩)

/-- The service after `net_event_accept` has registered the descriptor with its events, and
    `on_accept` has turned the rest of the program into `g`. -/
def afterAccept (s : NetService lib) (fd : ℤ) (g : GameServer) (evRead evWrite : EventPtr)
    (base : lib.Base) : NetService lib :=
  { s with
    server := g
    base
    netEvents := s.netEvents.put fd.toNat ⟨some evRead, some evWrite⟩
    sockets := fd :: s.sockets }

/-- With memory for both events, they are made, and the read event is added. -/
theorem newEvents_made (b : lib.Base) (fd : ℤ) (added : Bool) :
    ∃ evRead evWrite b₁ b₂ b', lib.new b ⟨fd, .netEventRead⟩ true = (some evRead, b₁) ∧
      lib.new b₁ ⟨fd, .netEventWrite⟩ true = (some evWrite, b₂) ∧
      lib.add b₂ evRead added = some b' ∧ NewEvents b fd added evRead evWrite b' := by
  obtain ⟨evRead, b₁, hread, hnone, hfind₁, hpending₁⟩ := lib.new_made b ⟨fd, .netEventRead⟩
  obtain ⟨evWrite, b₂, hwrite, hnone₁, hfind₂, hpending₂⟩ := lib.new_made b₁ ⟨fd, .netEventWrite⟩
  -- the second event is not where the first one is
  have hne : evRead ≠ evWrite := by
    rintro rfl
    rw [hfind₁, Function.update_self] at hnone₁
    cases hnone₁
  have hold : lib.find b evWrite = none := by
    rwa [hfind₁, Function.update_of_ne hne.symm] at hnone₁
  have hexists : lib.find b₂ evRead = some ⟨fd, .netEventRead⟩ := by
    rw [hfind₂, Function.update_of_ne hne, hfind₁, Function.update_self]
  obtain ⟨b', hadd, hfind, -⟩ := lib.add_made b₂ evRead added _ hexists
  refine ⟨evRead, evWrite, b₁, b₂, b', hread, hwrite, hadd, hnone, hold, hne, ?_, fun x => ?_⟩
  · rw [hfind, hfind₂, hfind₁]
  · rw [EventLibrary.fires_add hexists hadd, EventLibrary.fires_new hnone₁ hfind₂ hpending₂,
        EventLibrary.fires_new hnone hfind₁ hpending₁]

/-- With memory for one event alone, it is freed and then added; without memory for the read event,
    the null pointer is.  So `net_event_accept` is defined only when there was memory for both. -/
theorem netEventAccept_spec {memRead memWrite added : Bool} {rand : UInt32} {row : ℕ → UInt8}
    {o : Option SessionPtr} (hfd : 0 ≤ fd)
    (h : s.netEventAccept fd memRead memWrite added rand row = some (o, t)) :
    fd.toNat < s.netEvents.size ∧ memRead = true ∧ memWrite = true ∧
      ∃ g evRead evWrite base, s.server.onAccept fd rand row = some (o, g) ∧
        NewEvents s.base fd added evRead evWrite base ∧
        t = s.afterAccept fd g evRead evWrite base := by
  rw [netEventAccept, if_neg (not_lt.2 hfd), Option.bind_eq_some_iff] at h
  obtain ⟨netEvents, hset, h⟩ := h
  have hlt : fd.toNat < s.netEvents.size := by
    by_contra hge
    rw [Block.set_eq_none hge] at hset
    cases hset
  rw [Block.set_eq_some hlt] at hset
  cases hset
  obtain ⟨evRead, evWrite, b₁, b₂, b', hread, hwrite, hadd, hnew⟩ :=
    newEvents_made s.base fd added
  cases memRead with
  | false =>
    -- there is no pointer to add
    obtain ⟨base, -, h⟩ := Option.bind_eq_some_iff.1 h
    rw [lib.new_failed, Option.bind_none] at h
    cases h
  | true =>
    rw [hread] at h
    cases memWrite with
    | false =>
      -- the pointer to add dangles
      rw [lib.new_failed] at h
      obtain ⟨base, hfree, h⟩ := Option.bind_eq_some_iff.1 h
      obtain ⟨base', hadd', -⟩ := Option.bind_eq_some_iff.1 h
      have hgone := lib.add_gone base evRead added (lib.release_gone b₁ evRead base hfree)
      cases hgone.symm.trans hadd'
    | true =>
      rw [hwrite] at h
      obtain ⟨base, hfree, h⟩ := Option.bind_eq_some_iff.1 h
      cases hfree
      rw [Option.bind_some, hadd, Option.bind_some, Option.map_eq_some_iff] at h
      obtain ⟨⟨o', g⟩, hon, heq⟩ := h
      cases heq
      exact ⟨hlt, rfl, rfl, g, evRead, evWrite, b', hon, hnew, rfl⟩

/-- The service after a call on one session left the session and the heap of `st`. -/
def setSession (s : NetService lib) (session : SessionPtr) (st : ReadState) : NetService lib :=
  { s with server := ⟨s.server.manager.modifySession session fun _ => st.session, st.heap⟩ }

/-- The session behind a pointer, with the heap. -/
def readState (s : NetService lib) (session : SessionPtr) : ReadState :=
  ⟨s.server.manager.mallocSession session, s.server.heap⟩

/-- `on_read` for a descriptor that no session was found under. -/
theorem netEventRead_of_none (hfd : 0 < fd) (hmap : s.server.manager.mapSessions fd = none)
    (result : RecvResult) : s.netEventRead table fd result = some ([], s) := by
  rw [netEventRead, GameServer.onRead, SessionManager.getOneSession, if_pos hfd, hmap]
  rfl

theorem netEventRead_of_some {session : SessionPtr} (hfd : 0 < fd)
    (hmap : s.server.manager.mapSessions fd = some session) (result : RecvResult) :
    s.netEventRead table fd result =
      (onReadSession table (s.readState session) result).map fun r =>
        (r.1, s.setSession session r.2) := by
  have hfound : s.server.manager.getOneSession fd = some (some session) := by
    rw [SessionManager.getOneSession, if_pos hfd, hmap]
  rw [netEventRead, onRead_session hfound, Option.map_map]
  rfl

theorem netEventWrite_of_none (hfd : 0 < fd) (hmap : s.server.manager.mapSessions fd = none)
    (message : MessagePtr) (result : SendResult) (deleted : Bool) :
    s.netEventWrite fd message result deleted = some (none, s) := by
  rw [netEventWrite, GameServer.onWrite, SessionManager.getOneSession, if_pos hfd, hmap]
  rfl

/-- What `on_write` does to a session whose write ring is empty: it takes the messages off the queue,
    commits and sends nothing, and leaves the event alone. -/
def silentOutcome (p : NetSession) : WriteOutcome where
  drained := p.writeQueue.waiting.map fun m => ⟨m, []⟩
  offset := p.writeBuffer.readP
  offered := p.writeBuffer.used
  sent := []
  disarmed := false

theorem writeStep_silent {p : NetSession} {c : WriteCall} (hring : WriteRingEmpty p)
    (hready : c.Ready p) :
    ∃ q : MessageQueue, q.waiting = [] ∧
      writeStep p c = some (silentOutcome p, { p with writeQueue := q }) := by
  obtain ⟨q, hq, hdrain⟩ := drain_spec hready
  have htook : c.took p.writeBuffer = 0 := by
    have hle := took_le (c := c) p.writeBuffer
    rw [hring.2] at hle
    exact Nat.le_zero.1 hle
  have hsend : netSocketSend p.writeBuffer c.result = some [] := by
    rw [netSocketSend_eq, htook]
    exact Block.read_eq_some p.writeBuffer.readPtr_lt.le
  refine ⟨q, hq, ?_⟩
  rw [writeStep, onWriteSession, hdrain, Option.bind_some]
  dsimp only
  rw [hsend]
  rfl

/-- `on_write` does to the session behind the socket what `onWriteSession` says. -/
theorem onWrite_session {g : GameServer} {session : SessionPtr} (hfd : 0 < fd)
    (hmap : g.manager.mapSessions fd = some session) (message : MessagePtr) (result : SendResult) :
    g.onWrite fd message result =
      (onWriteSession g.heap message result (g.manager.mallocSession session)).map fun r =>
        (some r.1, { g with manager := g.manager.modifySession session fun _ => r.2 }) := by
  rw [GameServer.onWrite, SessionManager.getOneSession, if_pos hfd, hmap]
  rfl

/-- `on_write` for a session whose write ring is empty. -/
theorem netEventWrite_of_some {session : SessionPtr} {message : MessagePtr} {result : SendResult}
    (hfd : 0 < fd) (hmap : s.server.manager.mapSessions fd = some session)
    (hring : WriteRingEmpty (s.server.manager.mallocSession session))
    (hready : WriteCall.Ready ⟨s.server.heap, message, result⟩
      (s.server.manager.mallocSession session)) (deleted : Bool) :
    ∃ q : MessageQueue, q.waiting = [] ∧ s.netEventWrite fd message result deleted =
      some (some (silentOutcome (s.server.manager.mallocSession session)), s.setSession session
        ⟨{ s.server.manager.mallocSession session with writeQueue := q }, s.server.heap⟩) := by
  obtain ⟨q, hq, hstep⟩ := writeStep_silent hring hready
  have hwrite : onWriteSession s.server.heap message result
      (s.server.manager.mallocSession session) =
        some (silentOutcome (s.server.manager.mallocSession session),
          { s.server.manager.mallocSession session with writeQueue := q }) := hstep
  refine ⟨q, hq, ?_⟩
  rw [netEventWrite, onWrite_session hfd hmap, hwrite, Option.map_some, Option.bind_some, hmap]
  rfl

/-- A message to encode is followed through the local variable. -/
theorem netEventWrite_garbage {session : SessionPtr} {message : MessagePtr} {result : SendResult}
    (hfd : 0 < fd) (hmap : s.server.manager.mapSessions fd = some session)
    (hready : ¬ WriteCall.Ready ⟨s.server.heap, message, result⟩
      (s.server.manager.mallocSession session)) (deleted : Bool) :
    s.netEventWrite fd message result deleted = none := by
  have hwrite : onWriteSession s.server.heap message result
      (s.server.manager.mallocSession session) = none := writeStep_garbage hready
  rw [netEventWrite, onWrite_session hfd hmap, hwrite]
  rfl

/-- What `on_accept` leaves in the sessions and on the heap. -/
theorem onAccept_frame {g g' : GameServer} {rand : UInt32} {row : ℕ → UInt8}
    {session : SessionPtr} {rest : List SessionPtr} (h : g.manager.vctSessions = session :: rest)
    {o : Option SessionPtr} (ho : g.onAccept fd rand row = some (o, g')) :
    g'.heap = g.heap ∧ ∀ p, g'.manager.mallocSession p =
      if p = session then
        { g.manager.mallocSession p with
          socket := fd
          crypt := sendKey (g.manager.mallocSession p).crypt rand row }
      else g.manager.mallocSession p := by
  unfold GameServer.onAccept SessionManager.claimOneSession at ho
  rw [h, Option.map_eq_some_iff] at ho
  obtain ⟨⟨flag, m⟩, hinsert, heq⟩ := ho
  cases heq
  obtain ⟨-, -, hmalloc, -⟩ := SessionManager.insertSession_spec hinsert
  refine ⟨rfl, fun p => ?_⟩
  dsimp only
  by_cases hp : p = session
  · rw [if_pos hp, hp, SessionManager.modifySession_self, hmalloc,
        SessionManager.modifySession_self]
    rfl
  · rw [if_neg hp, SessionManager.modifySession_of_ne hp, hmalloc,
        SessionManager.modifySession_of_ne hp]

/-- **`on_accept`, inverted.**  Without a free session the program stays as it is; with one, the first
    is claimed. -/
theorem onAccept_cases {g g' : GameServer} {rand : UInt32} {row : ℕ → UInt8}
    {o : Option SessionPtr} (ho : g.onAccept fd rand row = some (o, g')) :
    (g.manager.vctSessions = [] ∧ g' = g) ∨
      ∃ session rest, g.manager.vctSessions = session :: rest ∧ g'.manager.vctSessions = rest ∧
        g'.manager.mapSessions = (if g.manager.mapSessions fd = none
          then Function.update g.manager.mapSessions fd (some session)
          else g.manager.mapSessions) ∧
        g'.heap = g.heap ∧ ∀ p, g'.manager.mallocSession p =
          if p = session then
            { g.manager.mallocSession p with
              socket := fd
              crypt := sendKey (g.manager.mallocSession p).crypt rand row }
          else g.manager.mallocSession p := by
  cases hvct : g.manager.vctSessions with
  | nil =>
    rw [onAccept_full hvct] at ho
    cases ho
    exact Or.inl ⟨rfl, rfl⟩
  | cons session rest =>
    obtain ⟨-, -, hrest, hmap, -⟩ := onAccept_spec hvct ho
    exact Or.inr ⟨session, rest, rfl, hrest, hmap, onAccept_frame hvct ho⟩

end Calls

end NetService

end LeoNet
