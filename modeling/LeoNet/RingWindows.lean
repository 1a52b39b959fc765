import LeoNet.FrameLoop
import LeoNet.SendPath

namespace LeoNet

open Memory Circular Counter Loop Machine

/-!
# The windows that the callbacks take from the rings

`available()` and `used()` count cells around the ring, but `recv`, `send`, the encoder and the
decoder are given a pointer and go straight on from it.  A lap of a ring is one round through its
storage; counter values of one lap have the same quotient by the capacity.

* `window_inside_iff` — a window stays inside the storage exactly when it lies in one lap;
* `recvInside_iff` — the free cells do when the bytes held start a lap or reach into the next
  one;
* `writeInside` — the write ring stays empty, and its windows with it;
* `windowsInside_iff_oneLap` — hence what runs of both callbacks need for their windows to stay
  inside.
-/

variable {table : UInt8 → UInt32}

/-! ### Runs of both callbacks -/

/-- A call of one of the callbacks, or of the logic thread. -/
inductive SessionCall where
  | read (result : RecvResult)
  | write (call : WriteCall)
  | push (nm : MessagePtr)
  | fetch (nm : MessagePtr)

/-- One call. -/
def sessionStep (table : UInt8 → UInt32) (st : ReadState) :
    SessionCall → Option (Unit × ReadState)
  | .read result => (onReadSession table st result).map fun r => ((), r.2)
  | .write call => (writeStep st.session call).map fun r => ((), { st with session := r.2 })
  | .push nm => some ((), { st with session := (st.session.pushToWritequeue nm).2.2 })
  | .fetch nm => some ((), { st with session := (st.session.fetchFromReadqueue nm).2 })

/-! ### The windows -/

/-- A window of `len` bytes from offset `start` on lies inside `MAX_BUFFER_LEN` bytes. -/
def WindowInside (start len : ℕ) : Prop := start + len ≤ MAX_BUFFER_LEN.toNat

/-- `[rb->write_p(), rb->write_p() + rb->available())`, passed to `recv`. -/
def RecvInside (rb : RingBuffer) : Prop := WindowInside rb.writePtr rb.available.toNat

/-- `[rb->read_p(), rb->read_p() + 2 + message_len)`, passed to the decoder by a pass that takes
    a frame. -/
def DecoderInside (st : ReadState) : Prop :=
  st.session.HeadComplete →
    WindowInside st.session.readBuffer.readPtr (2 + st.session.messageLen.toNat)

/-- `[wb->write_p(), wb->write_p() + len)`, `len` being what the encoder returned for the message
    of this pass. -/
def EncoderInside (call : WriteCall) (s : NetSession) : Prop :=
  ∀ nm ∈ call.heap[call.message]?, ∀ e ∈ transformMessageToBuffer s.crypt nm
      s.writeBuffer.storage s.writeBuffer.writePtr nm.realSize.toUInt32.toInt32,
    WindowInside s.writeBuffer.writePtr e.1.toNat

/-- `[wb->read_p(), wb->read_p() + wb->used())`, passed to `send`. -/
def SendInside (wb : RingBuffer) : Prop := WindowInside wb.readPtr wb.used.toNat

/-- All windows that one call takes from the rings lie inside their storage. -/
def WindowsInside (table : UInt8 → UInt32) (st : ReadState) : SessionCall → Prop
  | .read result =>
    RecvInside st.session.readBuffer ∧
      match result with
      | .bytes (b :: bs) =>
        AllPasses (onReadIter table) DecoderInside
          ((st.received (b :: bs)).session.readBuffer.used.toNat + 1) (st.received (b :: bs))
      | _ => True
  | .write call =>
    AllPasses (onWriteIter call.heap call.message) (EncoderInside call)
        (st.session.writeQueue.size + 1) st.session ∧
      ∀ r ∈ drainWritequeue call.heap call.message st.session, SendInside r.2.writeBuffer
  | _ => True

/-- The bytes held start a lap of the ring, or reach into the next one. -/
def RecvOneLap (rb : RingBuffer) : Prop :=
  rb.readP.toNat % rb.cap = 0 ∨
    rb.readP.toNat / rb.cap < (rb.readP.toNat + rb.used.toNat) / rb.cap

/-- The frame that heads the ring ends, with two bytes behind it, in the lap it starts in. -/
def FrameOneLap (st : ReadState) : Prop :=
  st.session.HeadComplete →
    (st.session.readBuffer.readP.toNat + st.session.messageLen.toNat + 1) /
        st.session.readBuffer.cap =
      st.session.readBuffer.readP.toNat / st.session.readBuffer.cap

/-- What `on_read` finds lies in one lap: the free cells, and each frame it takes. -/
def OneLap (table : UInt8 → UInt32) (st : ReadState) : SessionCall → Prop
  | .read result =>
    RecvOneLap st.session.readBuffer ∧
      match result with
      | .bytes (b :: bs) =>
        AllPasses (onReadIter table) FrameOneLap
          ((st.received (b :: bs)).session.readBuffer.used.toNat + 1) (st.received (b :: bs))
      | _ => True
  | _ => True

/-! ### Windows and laps -/

/-- A window of at least one cell stays inside the storage exactly when it lies in one lap. -/
theorem window_inside_iff {n : ℕ} (hn : 0 < n) (p k : ℕ) :
    p % n + (k + 1) ≤ n ↔ (p + k) / n = p / n := by
  have hp := Nat.div_add_mod p n
  have hlt := Nat.mod_lt p hn
  constructor
  · intro hle
    have hsplit : p + k = (p % n + k) + n * (p / n) := by omega
    rw [hsplit, Nat.add_mul_div_left _ _ hn, Nat.div_eq_of_lt (by omega), Nat.zero_add]
  · intro heq
    have hpk := Nat.div_add_mod (p + k) n
    have hlt' := Nat.mod_lt (p + k) hn
    rw [heq] at hpk
    omega

section Windows

variable {st : ReadState} {call : WriteCall} {s : NetSession}

/-- The free cells lie inside the storage exactly when the bytes held start a lap or reach into
    the next one. -/
theorem recvInside_iff {rb : RingBuffer} (hsize : rb.bufferSize = MAX_BUFFER_LEN) :
    RecvInside rb ↔ RecvOneLap rb := by
  have hcap : rb.cap = MAX_BUFFER_LEN.toNat := congrArg UInt32.toNat hsize
  have hpos := rb.cap_pos
  have hused := rb.used_toNat_le
  unfold RecvInside RecvOneLap WindowInside
  rw [← hcap, RingBuffer.writePtr_eq, RingBuffer.available_toNat, RingBuffer.writeP_mod]
  have hr := Nat.div_add_mod rb.readP.toNat rb.cap
  have hlt := Nat.mod_lt rb.readP.toNat hpos
  have hw := Nat.div_add_mod (rb.readP.toNat + rb.used.toNat) rb.cap
  have hlt' := Nat.mod_lt (rb.readP.toNat + rb.used.toNat) hpos
  -- the next lap is the only one they can reach into
  rcases Nat.lt_or_ge (rb.readP.toNat % rb.cap + rb.used.toNat) rb.cap with hsame | hnext
  · have hdiv : (rb.readP.toNat + rb.used.toNat) / rb.cap = rb.readP.toNat / rb.cap :=
      Nat.div_eq_of_lt_le (by rw [Nat.mul_comm]; omega)
        (by rw [Nat.succ_mul, Nat.mul_comm]; omega)
    rw [hdiv] at hw ⊢
    omega
  · have hdiv : (rb.readP.toNat + rb.used.toNat) / rb.cap = rb.readP.toNat / rb.cap + 1 :=
      Nat.div_eq_of_lt_le (by rw [Nat.succ_mul, Nat.mul_comm]; omega)
        (by rw [Nat.succ_mul, Nat.succ_mul, Nat.mul_comm]; omega)
    rw [hdiv] at hw ⊢
    rw [Nat.mul_add, Nat.mul_one] at hw
    omega

/-- The decoder's window lies inside the storage exactly when it lies in one lap. -/
theorem decoderInside_iff (hsize : st.session.readBuffer.bufferSize = MAX_BUFFER_LEN) :
    DecoderInside st ↔ FrameOneLap st := by
  have hcap : st.session.readBuffer.cap = MAX_BUFFER_LEN.toNat := congrArg UInt32.toNat hsize
  refine imp_congr_right fun _ => ?_
  unfold WindowInside
  rw [← hcap, RingBuffer.readPtr_eq, Nat.add_assoc,
      ← window_inside_iff st.session.readBuffer.cap_pos]
  constructor <;> intro h <;> omega

/-- The write ring is as long as it should be, and empty. -/
def WriteRingEmpty (s : NetSession) : Prop :=
  s.writeBuffer.bufferSize = MAX_BUFFER_LEN ∧ s.writeBuffer.used = 0

/-- The encoder, offered a buffer of the message's own size, writes nothing. -/
theorem encoderInside (call : WriteCall) (hs : WriteRingEmpty s) : EncoderInside call s := by
  intro nm hnm e he
  rw [transformMessageToBuffer_realSize, Option.mem_some_iff] at he
  subst he
  have hlt : s.writeBuffer.writePtr < s.writeBuffer.cap := mask_lt s.writeBuffer.pow2 _
  have hcap : s.writeBuffer.cap = MAX_BUFFER_LEN.toNat := congrArg UInt32.toNat hs.1
  unfold WindowInside
  rw [← hcap]
  exact hlt.le

theorem sendInside (hs : WriteRingEmpty s) : SendInside s.writeBuffer := by
  have hlt := s.writeBuffer.readPtr_lt
  have hcap : s.writeBuffer.cap = MAX_BUFFER_LEN.toNat := congrArg UInt32.toNat hs.1
  unfold SendInside WindowInside
  rw [← hcap, hs.2]
  exact hlt.le

/-- A pass of the drain loop leaves the write ring alone. -/
theorem onWriteIter_writeBuffer {o : DrainEvent} {t : NetSession}
    (h : onWriteIter call.heap call.message s = some (.next o t)) :
    t.writeBuffer = s.writeBuffer := by
  rcases hw : s.writeQueue.waiting with _ | ⟨p, ps⟩
  · rw [onWriteIter_stop hw] at h
    cases h
  · obtain ⟨q, -, hiter⟩ := onWriteIter_spec call.heap call.message hw
    rw [hiter, Option.map_eq_some_iff] at h
    obtain ⟨nm, -, heq⟩ := h
    cases heq
    rfl

/-- So does the whole loop. -/
theorem drain_writeBuffer {r : List DrainEvent × NetSession}
    (h : drainWritequeue call.heap call.message s = some r) :
    r.2.writeBuffer = s.writeBuffer := by
  by_cases hready : call.Ready s
  · obtain ⟨q, -, hdrain⟩ := drain_spec hready
    rw [hdrain] at h
    cases h
    rfl
  · obtain ⟨hm, hw⟩ := not_or.mp hready
    rw [drain_garbage (Option.not_isSome_iff_eq_none.mp hm) hw] at h
    cases h

/-- **The windows of `on_write`** lie inside the storage. -/
theorem writeInside (call : WriteCall) (hs : WriteRingEmpty st.session) :
    WindowsInside table st (.write call) := by
  constructor
  · refine allPasses_of_inv (I := WriteRingEmpty) (fun _ => encoderInside call) ?_ hs _
    intro u o v hu hnext
    unfold WriteRingEmpty
    rw [onWriteIter_writeBuffer hnext]
    exact hu
  · intro r hr
    rw [drain_writeBuffer hr]
    exact sendInside hs

/-- The rings are as long as they should be, and the write ring is empty. -/
def RingsSound (st : ReadState) : Prop :=
  st.session.readBuffer.bufferSize = MAX_BUFFER_LEN ∧ WriteRingEmpty st.session

/-- The frame loop leaves the length of the read ring and the write ring alone. -/
theorem ringsSound_onReadIter {t : ReadState} {e : FrameEvent} (h : RingsSound st)
    (hnext : onReadIter table st = some (.next e t)) : RingsSound t := by
  obtain ⟨-, -, d, -, rfl⟩ := onReadIter_eq_next hnext
  refine ⟨?_, h.2⟩
  rw [← h.1]
  exact (RingBuffer.seekRead_frame _ _).1

/-- Every call leaves the rings sound. -/
theorem ringsSound_step {t : ReadState} {c : SessionCall} {o : Unit} (h : RingsSound st)
    (hstep : sessionStep table st c = some (o, t)) : RingsSound t := by
  -- `on_read`, then `on_write`, then the two calls on the queues, which have no ring
  rcases c with result | call | nm | nm
  · obtain ⟨⟨es, u⟩, hread, heq⟩ := Option.map_eq_some_iff.mp hstep
    cases heq
    rcases result with (_ | ⟨b, bs⟩) | _
    · cases hread
      exact h
    · have hlin := onReadBytes_linear hread
      have hloop := (onReadBytes_eq hlin).symm.trans hread
      -- `recv` fills the read ring, and every pass of the loop takes bytes off it
      refine loop_inv (I := RingsSound) ?_ ?_ ?_ hloop
      · intro u v hu hstop
        rw [(onReadIter_eq_stop hstop).2]
        exact hu
      · intro u e v hu hnext
        exact ringsSound_onReadIter hu hnext
      · exact ⟨received_bufferSize.trans h.1, h.2⟩
    · cases hread
      exact h
  · obtain ⟨⟨w, u⟩, hwrite, heq⟩ := Option.map_eq_some_iff.mp hstep
    cases heq
    have hready : call.Ready st.session := by
      by_contra hnot
      rw [writeStep_garbage hnot] at hwrite
      cases hwrite
    obtain ⟨q, ds, -, -, hspec⟩ := onWriteSession_spec hready
    rw [hspec, Option.map_eq_some_iff] at hwrite
    obtain ⟨sent, -, heq⟩ := hwrite
    cases heq
    exact h
  · cases hstep
    exact h
  · cases hstep
    exact h

/-- One call keeps its windows inside exactly when what `on_read` finds lies in one lap. -/
theorem windowsInside_iff (h : RingsSound st) (c : SessionCall) :
    WindowsInside table st c ↔ OneLap table st c := by
  rcases c with result | call | nm | nm
  · refine and_congr (recvInside_iff h.1) ?_
    rcases result with (_ | ⟨b, bs⟩) | _
    · exact Iff.rfl
    · exact allPasses_congr (I := RingsSound) (fun u hu => decoderInside_iff hu.1)
        (fun _ _ _ => ringsSound_onReadIter) ⟨received_bufferSize.trans h.1, h.2⟩ _
    · exact Iff.rfl
  · exact iff_of_true (writeInside call h.2) trivial
  · exact Iff.rfl
  · exact Iff.rfl

end Windows

/-- **Which runs keep their windows inside.**  In a run of both callbacks and the logic thread
    over a session whose write ring is empty, as a fresh one's is, all windows lie inside the
    rings' storage exactly when what each call of `on_read` finds lies in one lap of the read
    ring. -/
theorem windowsInside_iff_oneLap (table : UInt8 → UInt32) (st : ReadState)
    (calls : List SessionCall) (hsound : RingsSound st) :
    AllSteps (sessionStep table) (WindowsInside table) st calls ↔
      AllSteps (sessionStep table) (OneLap table) st calls :=
  allSteps_congr (fun _ c hs => windowsInside_iff hs c) (fun _ _ _ _ => ringsSound_step) hsound
    calls

/-- A fresh session, whose memory held zeroes. -/
theorem windowsInside_iff_oneLap_fresh :
    RingsSound ⟨.new .zeroed, []⟩ ∧
      (AllSteps (sessionStep initialCrc32Table) (WindowsInside initialCrc32Table)
          ⟨.new .zeroed, []⟩ [.read (.bytes [4, 0, 1, 1]), .write ⟨[], 0, .accepted 1⟩] ↔
        AllSteps (sessionStep initialCrc32Table) (OneLap initialCrc32Table)
          ⟨.new .zeroed, []⟩ [.read (.bytes [4, 0, 1, 1]), .write ⟨[], 0, .accepted 1⟩]) :=
  have h : RingsSound ⟨.new .zeroed, []⟩ := ⟨rfl, rfl, rfl⟩
  ⟨h, windowsInside_iff_oneLap _ _ _ h⟩

/-- The frame `04 00 01 01` leaves the free cells split: the next `recv` is given `4096` bytes
    from offset `4` on. -/
theorem windowsInside_fails :
    ¬ ∀ (st : ReadState) (calls : List SessionCall), RingsSound st →
      AllSteps (sessionStep initialCrc32Table) (WindowsInside initialCrc32Table) st calls := by
  intro h
  obtain ⟨⟨o, t⟩, hstep⟩ : ∃ r, sessionStep initialCrc32Table ⟨.keyed 0 fun _ => 1, []⟩
      (.read (.bytes [4, 0, 1, 1])) = some r := Option.isSome_iff_exists.mp (by decide +kernel)
  have hall := h ⟨.keyed 0 fun _ => 1, []⟩ [.read (.bytes [4, 0, 1, 1]), .read .error]
    ⟨rfl, rfl, rfl⟩
  have hrecv := (hall.tail hstep).head.1
  have hwindow : ((sessionStep initialCrc32Table ⟨.keyed 0 fun _ => 1, []⟩
      (.read (.bytes [4, 0, 1, 1]))).map fun r =>
        (r.2.session.readBuffer.writePtr, r.2.session.readBuffer.available.toNat)) =
      some (4, 4096) := by decide +kernel
  rw [hstep, Option.map_some, Option.some_inj, Prod.mk.injEq] at hwindow
  unfold RecvInside WindowInside at hrecv
  rw [hwindow.1, hwindow.2] at hrecv
  exact absurd hrecv (by decide)

end LeoNet
