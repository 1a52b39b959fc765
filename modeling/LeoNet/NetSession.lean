import LeoNet.RingBuffer
import LeoNet.LockFreeQueue
import LeoNet.TcpGameProtocol

namespace LeoNet

open Memory Counter

/-!
# `net_session` and `session_manager` — `leo_net_session.h` / `leo_net_session.cpp`

A session owns two rings and two queues of message pointers.  Its constructor sets the socket,
the id and the rings' counters; the rest of the object keeps what its memory held, since the
queues have no constructor and nobody calls their `init_queue`.

The manager hands sessions of one array out of a free list and finds them again by socket.  A
`net_session*` is a place in that array, so a pointer to no session cannot be written down.  An
`assert` that fails ends the program: the call is then undefined.
-/

/-- `MAX_SESSION`. -/
def MAX_SESSION : ℕ := 10

/-- `MAX_QUEUE_LEN`. -/
def MAX_QUEUE_LEN : UInt32 := 128

/-- `MAX_BUFFER_LEN`. -/
def MAX_BUFFER_LEN : UInt32 := 4096

/-- The queues have `2 ^ 7` slots. -/
theorem isPow2_maxQueueLen : IsPow2 MAX_QUEUE_LEN := ⟨7, by decide, rfl⟩

/-- The rings have `2 ^ 12` cells. -/
theorem isPow2_maxBufferLen : IsPow2 MAX_BUFFER_LEN := ⟨12, by decide, rfl⟩

/-- `static_lock_free_queue<net_message*, MAX_QUEUE_LEN>`. -/
abbrev MessageQueue := StaticLockFreeQueue MessagePtr MAX_QUEUE_LEN

/-! ### One session -/

/-- `class net_session`. -/
structure NetSession where
  socket : ℤ
  sessionId : ℤ
  crypt : AboutCrypt
  readBuffer : RingBuffer
  writeBuffer : RingBuffer
  readQueue : MessageQueue
  writeQueue : MessageQueue

/-- What the memory of a session holds before it is constructed, as far as the constructor leaves
    it there. -/
structure RawSession where
  crypt : AboutCrypt
  readStorage : ℕ → UInt8
  writeStorage : ℕ → UInt8
  readQueue : MessageQueue
  writeQueue : MessageQueue

/-- Memory that held zeroes. -/
def RawSession.zeroed : RawSession where
  crypt := ⟨0, 0, fun _ => 0, fun _ => 0⟩
  readStorage := fun _ => 0
  writeStorage := fun _ => 0
  readQueue := .initQueue 0
  writeQueue := .initQueue 0

namespace NetSession

/-- The constructor. -/
def new (mem : RawSession) : NetSession where
  socket := 0
  sessionId := 0
  crypt := mem.crypt
  readBuffer := RingBuffer.new MAX_BUFFER_LEN isPow2_maxBufferLen mem.readStorage
  writeBuffer := RingBuffer.new MAX_BUFFER_LEN isPow2_maxBufferLen mem.writeStorage
  readQueue := mem.readQueue
  writeQueue := mem.writeQueue

/-- A session constructed in zeroed memory and keyed by `send_key`. -/
def keyed (rand : UInt32) (row : ℕ → UInt8) : NetSession :=
  let s := new .zeroed
  { s with crypt := sendKey s.crypt rand row }

/-- `push_to_readqueue(nm)`. -/
def pushToReadqueue (s : NetSession) (nm : MessagePtr) : Bool × NetSession :=
  let r := s.readQueue.pushBack nm
  (r.1, { s with readQueue := r.2 })

/-- `fetch_from_readqueue(nm)`.  The pointer is passed by value, as in `fetchFromWritequeue`. -/
def fetchFromReadqueue (s : NetSession) (nm : MessagePtr) : Bool × NetSession :=
  let r := s.readQueue.popFront nm
  (r.1, { s with readQueue := r.2.2 })

/-- `push_to_writequeue(nm)`: whether it called `add_write_event`, what it returned, the
    session. -/
def pushToWritequeue (s : NetSession) (nm : MessagePtr) : Bool × Bool × NetSession :=
  let r := s.writeQueue.pushBack nm
  (s.writeBuffer.empty, r.1, { s with writeQueue := r.2 })

/-- `fetch_from_writequeue(nm)`.  The pointer is passed by value: `pop_front` stores what it
    removes to the copy, and the caller's variable stays as it was. -/
def fetchFromWritequeue (s : NetSession) (nm : MessagePtr) : Bool × NetSession :=
  let r := s.writeQueue.popFront nm
  (r.1, { s with writeQueue := r.2.2 })

/-- `preread_message_size(buf, len)`. -/
def prereadMessageSize (s : NetSession) (len : UInt32) : UInt32 × List UInt8 :=
  s.readBuffer.peekRead len

/-- `set_socket(fd)`. -/
def setSocket (s : NetSession) (fd : ℤ) : NetSession := { s with socket := fd }

end NetSession

/-! ### The manager -/

/-- `net_session*`, a place in `__malloc_session`. -/
abbrev SessionPtr := Fin MAX_SESSION

/-- `class session_manager`. -/
structure SessionManager where
  vctSessions : List SessionPtr
  mapSessions : ℤ → Option SessionPtr
  mallocSession : SessionPtr → NetSession

namespace SessionManager

/-- The constructor and `init_sessions()`; `mem` is what the new array's memory held. -/
def initSessions (mem : SessionPtr → RawSession) : SessionManager where
  vctSessions := List.finRange MAX_SESSION
  mapSessions := fun _ => none
  mallocSession := fun i => NetSession.new (mem i)

/-- `claim_one_session()`. -/
def claimOneSession (m : SessionManager) : Option SessionPtr × SessionManager :=
  match m.vctSessions with
  | [] => (none, m)
  | session :: rest => (some session, { m with vctSessions := rest })

/-- `reclaim_one_session(session)`. -/
def reclaimOneSession (m : SessionManager) (session : SessionPtr) : SessionManager :=
  { m with vctSessions := m.vctSessions ++ [session] }

/-- `insert_session(socket, session)`. -/
def insertSession (m : SessionManager) (socket : ℤ) (session : SessionPtr) :
    Option (Bool × SessionManager) :=
  if 0 < socket then
    match m.mapSessions socket with
    | none =>
      some (true, { m with mapSessions := Function.update m.mapSessions socket (some session) })
    | some _ => some (false, m)
  else none

/-- `remove_session(socket)`. -/
def removeSession (m : SessionManager) (socket : ℤ) : Option (Bool × SessionManager) :=
  if 0 < socket then
    match m.mapSessions socket with
    | none => some (false, m)
    | some _ => some (true, { m with mapSessions := Function.update m.mapSessions socket none })
  else none

/-- `get_one_session(socket)`. -/
def getOneSession (m : SessionManager) (socket : ℤ) : Option (Option SessionPtr) :=
  if 0 < socket then some (m.mapSessions socket) else none

/-- The manager after a change to the session behind a pointer. -/
def modifySession (m : SessionManager) (session : SessionPtr) (f : NetSession → NetSession) :
    SessionManager :=
  { m with
    mallocSession := Function.update m.mallocSession session (f (m.mallocSession session)) }

section Lemmas

variable {m m' : SessionManager} {session : SessionPtr} {f : NetSession → NetSession}

/-- The session that is modified. -/
@[simp] theorem modifySession_self :
    (m.modifySession session f).mallocSession session = f (m.mallocSession session) :=
  Function.update_self _ _ _

/-- The other sessions stay as they are. -/
theorem modifySession_of_ne {p : SessionPtr} (h : p ≠ session) :
    (m.modifySession session f).mallocSession p = m.mallocSession p :=
  Function.update_of_ne h _ _

/-- `insert_session` enters the socket in the map unless it is there already, and touches
    nothing else. -/
theorem insertSession_spec {socket : ℤ} {flag : Bool}
    (h : m.insertSession socket session = some (flag, m')) :
    0 < socket ∧ m'.vctSessions = m.vctSessions ∧ m'.mallocSession = m.mallocSession ∧
      m'.mapSessions = if m.mapSessions socket = none
        then Function.update m.mapSessions socket (some session) else m.mapSessions := by
  unfold insertSession at h
  split at h
  case isFalse => cases h
  case isTrue hpos =>
    split at h
    case h_1 hnone =>
      cases h
      exact ⟨hpos, rfl, rfl, (if_pos hnone).symm⟩
    case h_2 found hfound =>
      cases h
      refine ⟨hpos, rfl, rfl, (if_neg fun hnone => ?_).symm⟩
      rw [hnone] at hfound
      cases hfound

/-- `remove_session` takes the socket out of the map, and touches nothing else. -/
theorem removeSession_spec {socket : ℤ} {flag : Bool}
    (h : m.removeSession socket = some (flag, m')) :
    0 < socket ∧ m'.vctSessions = m.vctSessions ∧
      m'.mapSessions = Function.update m.mapSessions socket none := by
  unfold removeSession at h
  split at h
  case isFalse => cases h
  case isTrue hpos =>
    split at h
    case h_1 hnone =>
      cases h
      refine ⟨hpos, rfl, ?_⟩
      rw [← hnone, Function.update_eq_self]
    case h_2 =>
      cases h
      exact ⟨hpos, rfl, rfl⟩

end Lemmas

end SessionManager

end LeoNet
