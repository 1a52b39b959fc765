import LeoNet.NetSession
import LeoNet.Lib.Loop

namespace LeoNet

open Memory Loop

/-!
# The callbacks of `main.c` — `on_accept`, `on_read`, `on_write`

The network is input: what `recv` and `send` return, the descriptor an event is about, what
`rand()` returned.  Each callback is a partial function of it and of the program's state; it is
not defined where the program leaves an object, follows a pointer to nothing or fails an
`assert`.  The two loops are `Loop.loop` over one pass of their body, and record what they did:
the frames taken off the read ring, the messages taken off the write queue.

* `frameIter_stop` / `frameIter_next` — one pass of the frame loop, by what heads the ring,
  whatever the decoder does; `onReadIter` is the one around `transform_buffer_to_message`;
* `onReadIter_used` — every further pass leaves fewer bytes in the ring, so that the fuel
  `onReadBytes` gives its loop is never used up (`onReadBytes_fuel`).
-/

variable (table : UInt8 → UInt32)

/-! ### `on_read` -/

/-- One frame that the loop of `on_read` took off the ring: the struct, the ring's storage,
    `rb->read_p()` and `message_len` as they were passed to the decoder, the message allocated
    for it, and what `push_to_readqueue` returned. -/
structure FrameEvent where
  crypt : AboutCrypt
  storage : Block UInt8
  buf : ℕ
  len : UInt16
  message : MessagePtr
  stored : Bool

/-- The bytes of the frame. -/
def FrameEvent.bytes (e : FrameEvent) : List UInt8 := load e.storage.byte e.buf e.len.toNat

/-- What the frame loop works on. -/
structure ReadState where
  session : NetSession
  heap : Heap

/-- `message_len`, unmasked. -/
def NetSession.messageLen (s : NetSession) : UInt16 :=
  UInt16.ofNat (ofBytes (s.prereadMessageSize 2).2) ^^^ (s.crypt.sessionKey &&& 0xffff).toUInt16

/-- The decoder's `msg_len` keeps the value of `message_len`. -/
theorem NetSession.msgLen_toNat (s : NetSession) :
    s.messageLen.toUInt32.toInt32.toUInt32.toNat = s.messageLen.toNat := by
  rw [UInt32.toUInt32_toInt32, UInt16.toNat_toUInt32]

/-- One pass of the frame loop. -/
def onReadIter (st : ReadState) : Option (Pass FrameEvent ReadState) :=
  let s := st.session
  let rb := s.readBuffer
  if (s.prereadMessageSize 2).1 < 2 then some (.stop st)
  else if s.messageLen.toUInt32 > rb.used then some (.stop st)
  else
    let message := st.heap.length
    (transformBufferToMessage table s.crypt NetMessage.new rb.storage rb.readPtr
      s.messageLen.toUInt32.toInt32).map fun d =>
        -- the value the decoder returned is not looked at
        let rb' := ((rb.setStorage d.buffer).seekRead s.messageLen.toUInt32).2
        let r := { s with crypt := d.crypt, readBuffer := rb' }.pushToReadqueue message
        .next ⟨s.crypt, rb.storage, rb.readPtr, s.messageLen, message, r.1⟩
          ⟨r.2, st.heap ++ [d.message]⟩

/-- What `recv` returns: bytes (none when the peer has closed the connection), or an error. -/
inductive RecvResult where
  | bytes (bs : List UInt8)
  | error

/-- `recv` stores the bytes it reports from `rb->write_p()` on. -/
def netSocketRecv (rb : RingBuffer) (bytes : List UInt8) : Option RingBuffer :=
  (rb.storage.write rb.writePtr bytes).map rb.setStorage

/-- The branch of `on_read` for `len > 0`: `recv` has reported `bytes`. -/
def onReadBytes (st : ReadState) (bytes : List UInt8) : Option (List FrameEvent × ReadState) :=
  (netSocketRecv st.session.readBuffer bytes).bind fun rb =>
    let rb := (rb.seekWrite (UInt32.ofNat bytes.length)).2
    loop (onReadIter table) (rb.used.toNat + 1)
      { st with session := { st.session with readBuffer := rb } }

/-- The ring holds the length prefix and all the bytes of its first frame. -/
def NetSession.HeadComplete (s : NetSession) : Prop :=
  2 ≤ s.readBuffer.used.toNat ∧ s.messageLen.toNat ≤ s.readBuffer.used.toNat

instance (s : NetSession) : Decidable s.HeadComplete :=
  inferInstanceAs (Decidable (_ ∧ _))

/-- The state after the pass that took the first frame off the ring, `d` being what the decoder
    left behind. -/
def ReadState.afterFrame (st : ReadState) (d : Decoded) : ReadState :=
  let s := st.session
  let rb := ((s.readBuffer.setStorage d.buffer).seekRead s.messageLen.toUInt32).2
  ⟨({ s with crypt := d.crypt, readBuffer := rb }.pushToReadqueue st.heap.length).2,
    st.heap ++ [d.message]⟩

/-- What the pass that takes the first frame off the ring records. -/
def ReadState.frameEvent (st : ReadState) : FrameEvent :=
  let s := st.session
  ⟨s.crypt, s.readBuffer.storage, s.readBuffer.readPtr, s.messageLen, st.heap.length,
    (s.pushToReadqueue st.heap.length).1⟩

/-- The decoder, called for the first frame of the ring. -/
def ReadState.decode (st : ReadState) : Option Decoded :=
  let s := st.session
  transformBufferToMessage table s.crypt NetMessage.new s.readBuffer.storage s.readBuffer.readPtr
    s.messageLen.toUInt32.toInt32

/-- One pass of the frame loop around a decoder of whatever results. -/
def frameIter (decoder : ReadState → Option Decoded) (st : ReadState) :
    Option (Pass FrameEvent ReadState) :=
  if (st.session.prereadMessageSize 2).1 < 2 then some (.stop st)
  else if st.session.messageLen.toUInt32 > st.session.readBuffer.used then some (.stop st)
  else (decoder st).map fun d => .next st.frameEvent (st.afterFrame d)

/-- The frame loop of `on_read` is the one for its decoder. -/
theorem onReadIter_eq : onReadIter table = frameIter (ReadState.decode table) := rfl

section FrameLoop

variable {table} {decoder : ReadState → Option Decoded} {st t : ReadState} {e : FrameEvent}

/-- Two bytes can be peeked when two are there. -/
theorem prereadMessageSize_two (s : NetSession) :
    (s.prereadMessageSize 2).1 < 2 ↔ ¬ 2 ≤ s.readBuffer.used.toNat := by
  have hspec := s.readBuffer.peekRead_spec 2
  have htwo : (2 : UInt32).toNat = 2 := rfl
  rw [htwo] at hspec
  unfold NetSession.prereadMessageSize
  by_cases h : 2 ≤ s.readBuffer.used.toNat
  · rw [hspec, if_pos h]
    exact iff_of_false (show ¬ (2 : UInt32) < 2 by decide) (not_not_intro h)
  · rw [hspec, if_neg h]
    exact iff_of_true (show (0 : UInt32) < 2 by decide) h

/-- Without a complete frame at the head of the ring the loop ends. -/
theorem frameIter_stop (decoder : ReadState → Option Decoded) (h : ¬ st.session.HeadComplete) :
    frameIter decoder st = some (.stop st) := by
  unfold frameIter
  by_cases h2 : 2 ≤ st.session.readBuffer.used.toNat
  · have hgt : st.session.messageLen.toUInt32 > st.session.readBuffer.used := by
      rw [gt_iff_lt, UInt32.lt_iff_toNat_lt, UInt16.toNat_toUInt32]
      exact Nat.lt_of_not_le fun hle => h ⟨h2, hle⟩
    simp only [prereadMessageSize_two, h2, hgt, not_true, if_true, if_false]
  · simp only [prereadMessageSize_two, h2, not_false_iff, if_true]

/-- With one, the decoder is called, and the frame's bytes leave the ring whatever it found. -/
theorem frameIter_next (decoder : ReadState → Option Decoded) (h : st.session.HeadComplete) :
    frameIter decoder st = (decoder st).map fun d => .next st.frameEvent (st.afterFrame d) := by
  obtain ⟨h2, hle⟩ := h
  have hgt : ¬ st.session.messageLen.toUInt32 > st.session.readBuffer.used := by
    rw [gt_iff_lt, UInt32.lt_iff_toNat_lt, UInt16.toNat_toUInt32]
    omega
  unfold frameIter
  simp only [prereadMessageSize_two, h2, hgt, not_true, if_false]

/-- A pass that goes round again, inverted. -/
theorem frameIter_eq_next (h : frameIter decoder st = some (.next e t)) :
    st.session.HeadComplete ∧ e = st.frameEvent ∧
      ∃ d, decoder st = some d ∧ t = st.afterFrame d := by
  by_cases hc : st.session.HeadComplete
  · rw [frameIter_next decoder hc, Option.map_eq_some_iff] at h
    obtain ⟨d, hd, heq⟩ := h
    cases heq
    exact ⟨hc, rfl, d, hd, rfl⟩
  · rw [frameIter_stop decoder hc] at h
    cases h

/-- A pass that ends the loop leaves everything as it was. -/
theorem frameIter_eq_stop (h : frameIter decoder st = some (.stop t)) :
    ¬ st.session.HeadComplete ∧ t = st := by
  by_cases hc : st.session.HeadComplete
  · rw [frameIter_next decoder hc, Option.map_eq_some_iff] at h
    obtain ⟨d, hd, heq⟩ := h
    cases heq
  · rw [frameIter_stop decoder hc] at h
    cases h
    exact ⟨hc, rfl⟩

/-- Without a complete head, the loop stops. -/
theorem onReadIter_stop (h : ¬ st.session.HeadComplete) :
    onReadIter table st = some (.stop st) :=
  frameIter_stop (ReadState.decode table) h

/-- With one, a pass takes a frame if the decoder is defined. -/
theorem onReadIter_next (table : UInt8 → UInt32) (h : st.session.HeadComplete) :
    onReadIter table st = (st.decode table).map fun d => .next st.frameEvent (st.afterFrame d) :=
  frameIter_next (ReadState.decode table) h

/-- A pass that takes a frame, inverted. -/
theorem onReadIter_eq_next (h : onReadIter table st = some (.next e t)) :
    st.session.HeadComplete ∧ e = st.frameEvent ∧
      ∃ d, st.decode table = some d ∧ t = st.afterFrame d := by
  rw [onReadIter_eq] at h
  exact frameIter_eq_next h

/-- A pass that stops, inverted. -/
theorem onReadIter_eq_stop (h : onReadIter table st = some (.stop t)) :
    ¬ st.session.HeadComplete ∧ t = st := by
  rw [onReadIter_eq] at h
  exact frameIter_eq_stop h

/-- The frame's bytes leave the ring. -/
theorem afterFrame_used (h : st.session.HeadComplete) (d : Decoded) :
    (st.afterFrame d).session.readBuffer.used.toNat =
      st.session.readBuffer.used.toNat - st.session.messageLen.toNat := by
  have hlen : st.session.messageLen.toUInt32.toNat = st.session.messageLen.toNat :=
    UInt16.toNat_toUInt32 _
  have hused := (st.session.readBuffer.setStorage d.buffer).seekRead_used
    (by rw [hlen]; exact h.2)
  rwa [hlen] at hused

/-- Every pass that goes round again leaves fewer bytes in the ring: the decoder is not defined
    for frames of fewer than two bytes. -/
theorem onReadIter_used (h : onReadIter table st = some (.next e t)) :
    t.session.readBuffer.used.toNat < st.session.readBuffer.used.toNat := by
  obtain ⟨hc, -, d, hd, rfl⟩ := onReadIter_eq_next h
  have hcap := st.session.readBuffer.cap_le
  have hlt := st.session.messageLen.toNat_lt
  -- the decoder went through, so the frame holds its CRC word
  have htwo := transformBufferToMessage_two_le hd
    (by show st.session.readBuffer.cap < 4294967296; omega)
    (by rw [NetSession.msgLen_toNat]; exact hlt)
  rw [NetSession.msgLen_toNat] at htwo
  have hle := hc.2
  rw [afterFrame_used hc]
  omega

/-- The fuel of the frame loop is never used up. -/
theorem onReadBytes_fuel {n : ℕ} (h : st.session.readBuffer.used.toNat < n) :
    loop (onReadIter table) n st =
      loop (onReadIter table) (st.session.readBuffer.used.toNat + 1) st :=
  loop_fuel (fun _ _ _ => onReadIter_used) h (Nat.lt_succ_self _)

end FrameLoop

/-! ### `on_write` -/

/-- One message that the drain loop of `on_write` took off the write queue, and the bytes it
    then moved the write counter over. -/
structure DrainEvent where
  removed : MessagePtr
  committed : List UInt8

/-- One pass of the drain loop.  `message` is the local variable, which nothing initialises;
    `heap` holds the messages. -/
def onWriteIter (heap : Heap) (message : MessagePtr) (s : NetSession) :
    Option (Pass DrainEvent NetSession) :=
  let r := s.fetchFromWritequeue message
  if r.1 = false then some (.stop r.2)
  else
    let wb := r.2.writeBuffer
    heap[message]?.bind fun nm =>
      (transformMessageToBuffer s.crypt nm wb.storage wb.writePtr
        nm.realSize.toUInt32.toInt32).map fun e =>
          let wb' := wb.setStorage e.2
          let wb' := if e.1 > 0 then (wb'.seekWrite e.1).2 else wb'
          .next ⟨(s.writeQueue.popFront message).2.1, wb'.contents.drop wb.contents.length⟩
            { r.2 with writeBuffer := wb' }

/-- The drain loop of `on_write`. -/
def drainWritequeue (heap : Heap) (message : MessagePtr) (s : NetSession) :
    Option (List DrainEvent × NetSession) :=
  loop (onWriteIter heap message) (s.writeQueue.size + 1) s

/-- What `send` returns: how many of the bytes it was given it accepted, or an error. -/
inductive SendResult where
  | accepted (n : ℕ)
  | error

/-- The bytes the socket takes: at most the `len` it is given, from `rb->read_p()` on. -/
def netSocketSend (wb : RingBuffer) : SendResult → Option (List UInt8)
  | .accepted n => wb.storage.read wb.readPtr (min n wb.used.toNat)
  | .error => some []

/-- What one call of `on_write` did: the messages it took, the read counter and the number of
    bytes it offered to `send`, the bytes accepted, and whether it deleted the write event. -/
structure WriteOutcome where
  drained : List DrainEvent
  offset : UInt32
  offered : UInt32
  sent : List UInt8
  disarmed : Bool

/-- `on_write`, on the session it found. -/
def onWriteSession (heap : Heap) (message : MessagePtr) (result : SendResult) (s : NetSession) :
    Option (WriteOutcome × NetSession) :=
  (drainWritequeue heap message s).bind fun r =>
    let wb := r.2.writeBuffer
    (netSocketSend wb result).map fun sent =>
      (⟨r.1, wb.readP, wb.used, sent, decide (0 < sent.length) && wb.empty⟩, r.2)

/-! ### The callbacks -/

/-- The state of the program. -/
structure GameServer where
  manager : SessionManager
  heap : Heap

namespace GameServer

/-- `on_accept(fd, …)`; it returns the session it claimed.  `rand` and `row` are what `send_key`
    draws; the encrypted key block stays in a local buffer. -/
def onAccept (g : GameServer) (fd : ℤ) (rand : UInt32) (row : ℕ → UInt8) :
    Option (Option SessionPtr × GameServer) :=
  match g.manager.claimOneSession with
  | (none, m) => some (none, { g with manager := m })
  | (some session, m) =>
    -- the flag that `insert_session` returns is not looked at
    ((m.modifySession session (·.setSocket fd)).insertSession fd session).map fun r =>
      (some session,
        { g with
          manager := r.2.modifySession session fun s =>
            { s with crypt := sendKey s.crypt rand row } })

/-- `on_read(fd, …)`. -/
def onRead (g : GameServer) (fd : ℤ) (result : RecvResult) :
    Option (List FrameEvent × GameServer) :=
  (g.manager.getOneSession fd).bind fun found =>
    match found, result with
    | some session, .bytes (b :: bs) =>
      (onReadBytes table ⟨g.manager.mallocSession session, g.heap⟩ (b :: bs)).map fun r =>
        (r.1, ⟨g.manager.modifySession session fun _ => r.2.session, r.2.heap⟩)
    | _, _ => some ([], g)

/-- `on_write(fd, …)`. -/
def onWrite (g : GameServer) (fd : ℤ) (message : MessagePtr) (result : SendResult) :
    Option (Option WriteOutcome × GameServer) :=
  (g.manager.getOneSession fd).bind fun found =>
    match found with
    | none => some (none, g)
    | some session =>
      (onWriteSession g.heap message result (g.manager.mallocSession session)).map fun r =>
        (some r.1, { g with manager := g.manager.modifySession session fun _ => r.2 })

end GameServer

end LeoNet
