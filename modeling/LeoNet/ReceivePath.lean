import LeoNet.Callbacks
import LeoNet.Lib.Machine

namespace LeoNet

open Memory Circular Counter Loop Machine

/-!
# The receive path — runs of `on_read` over one session

A run of `on_read` is a run of the machine `onReadBytes table`, whose inputs are the results of
`recv`.  Two promises of the receive path fail, and each holds exactly as far as said here.

* `received_append` — storing two results of `recv` one after the other is storing them at
  once, as long as they lie before the end of the storage;
* `run_bytewise` — a run whose steps are all `Tidy` is the run that receives every byte alone,
  hence `receive_of_tidy`: how the stream was cut does not matter to such runs;
* `onReadBytes_waiting` — what `on_read` adds to the read queue are the messages of the frames
  it took while the queue had room, hence `authentic_iff_checked`.
-/

variable {table : UInt8 → UInt32}

/-! ### What `recv` leaves in the ring -/

/-- The session after `recv` stored `bytes` and `seek_write` moved over them. -/
def NetSession.received (s : NetSession) (bytes : List UInt8) : NetSession :=
  let rb := s.readBuffer
  let b : Block UInt8 := ⟨rb.cap, store rb.ringBuffer rb.writePtr bytes⟩
  { s with readBuffer := ((rb.setStorage b).seekWrite (UInt32.ofNat bytes.length)).2 }

/-- The state after `recv` stored `bytes` and `seek_write` moved over them. -/
def ReadState.received (st : ReadState) (bytes : List UInt8) : ReadState :=
  { st with session := st.session.received bytes }

/-- `on_read` was given at least one byte, and no more than it had asked for. -/
def Fits (st : ReadState) (bytes : List UInt8) : Prop :=
  bytes ≠ [] ∧ bytes.length ≤ st.session.readBuffer.available.toNat

/-- The bytes lie before the end of the storage. -/
def Linear (st : ReadState) (bytes : List UInt8) : Prop :=
  st.session.readBuffer.writePtr + bytes.length ≤ st.session.readBuffer.cap

instance (st : ReadState) (bytes : List UInt8) : Decidable (Fits st bytes) :=
  inferInstanceAs (Decidable (_ ∧ _))

instance (st : ReadState) (bytes : List UInt8) : Decidable (Linear st bytes) :=
  inferInstanceAs (Decidable (_ ≤ _))

section Received

variable {st : ReadState} {xs ys : List UInt8}

/-- `on_read` is its frame loop, run where `recv` left the ring. -/
theorem onReadBytes_eq (h : Linear st xs) :
    onReadBytes table st xs =
      loop (onReadIter table) ((st.received xs).session.readBuffer.used.toNat + 1)
        (st.received xs) := by
  have hw := Block.write_eq_some (b := st.session.readBuffer.storage) h
  rw [onReadBytes, netSocketRecv, hw, Option.map_some, Option.bind_some]
  rfl

/-- Beyond the end of the storage it is not defined. -/
theorem onReadBytes_linear {r : List FrameEvent × ReadState}
    (h : onReadBytes table st xs = some r) : Linear st xs := by
  rw [onReadBytes, netSocketRecv, Option.bind_eq_some_iff] at h
  obtain ⟨rb, hrb, -⟩ := h
  rw [Option.map_eq_some_iff] at hrb
  obtain ⟨b, hb, -⟩ := hrb
  exact (Block.write_inv hb).1

/-- What fits does not overfill the ring. -/
theorem Fits.used_add_le (h : Fits st xs) :
    st.session.readBuffer.used.toNat + xs.length ≤ st.session.readBuffer.cap := by
  have havail := h.2
  have hused := st.session.readBuffer.used_toNat_le
  rw [RingBuffer.available_toNat] at havail
  omega

/-- The number of bytes received, as the `unsigned int` that `seek_write` gets. -/
theorem Fits.toNat_length (h : Fits st xs) : (UInt32.ofNat xs.length).toNat = xs.length := by
  have hle := h.used_add_le
  have hcap := st.session.readBuffer.cap_le
  rw [UInt32.toNat_ofNat']
  exact Nat.mod_eq_of_lt (by omega)

@[simp] theorem received_bufferSize :
    (st.received xs).session.readBuffer.bufferSize = st.session.readBuffer.bufferSize :=
  (RingBuffer.seekWrite_frame _ _).1

@[simp] theorem received_cap :
    (st.received xs).session.readBuffer.cap = st.session.readBuffer.cap :=
  congrArg UInt32.toNat received_bufferSize

/-- Receiving takes nothing off the ring. -/
@[simp] theorem received_readP :
    (st.received xs).session.readBuffer.readP = st.session.readBuffer.readP :=
  (RingBuffer.seekWrite_frame _ _).2.2

/-- The bytes are written behind those of the ring. -/
theorem received_ringBuffer :
    (st.received xs).session.readBuffer.ringBuffer =
      store st.session.readBuffer.ringBuffer st.session.readBuffer.writePtr xs :=
  (RingBuffer.seekWrite_frame _ _).2.1

/-- The write counter moves on. -/
theorem received_writeP (h : Fits st xs) :
    (st.received xs).session.readBuffer.writeP =
      st.session.readBuffer.writeP + UInt32.ofNat xs.length :=
  RingBuffer.seekWrite_writeP _ (by rw [h.toNat_length]; exact h.used_add_le)

/-- The bytes received stand behind those the ring held. -/
theorem received_contents (h : Fits st xs) (hlin : Linear st xs) :
    (st.received xs).session.readBuffer.contents = st.session.readBuffer.contents ++ xs := by
  have hfree := h.used_add_le
  have hlen := h.toNat_length
  -- `seek_write` adds what stands behind the contents, and `recv` has stored it there
  have hspec := (RingBuffer.seekWrite_spec (st.session.readBuffer.setStorage
    ⟨st.session.readBuffer.cap,
      store st.session.readBuffer.ringBuffer st.session.readBuffer.writePtr xs⟩)
    (UInt32.ofNat xs.length)).1 (by rw [hlen]; exact hfree)
  refine Eq.trans hspec.2 ?_
  rw [hlen]
  unfold Linear at hlin
  rw [RingBuffer.writePtr_eq] at hlin
  show window _ (store _ st.session.readBuffer.writePtr xs) _ _ ++
    window _ (store _ st.session.readBuffer.writePtr xs) _ _ = _
  rw [RingBuffer.writePtr_eq, store_eq_storeSplit _ hlin]
  congr 1
  · -- what was stored is not overwritten
    rw [storeSplit_mod_start _ _ st.session.readBuffer.writeP_mod]
    exact window_storeSplit_before st.session.readBuffer.cap_pos hfree _
  · exact window_storeSplit st.session.readBuffer.cap_pos (by omega) _

/-- The ring holds the bytes as well. -/
theorem received_used (h : Fits st xs) (hlin : Linear st xs) :
    (st.received xs).session.readBuffer.used.toNat =
      st.session.readBuffer.used.toNat + xs.length := by
  rw [← RingBuffer.contents_length, received_contents h hlin, List.length_append,
      RingBuffer.contents_length]

/-- Storing two results of `recv` one after the other is storing them at once. -/
theorem received_append (xs : List UInt8) (h : Fits st (xs ++ ys))
    (hlin : Linear st (xs ++ ys)) (hxs : xs ≠ []) (hys : ys ≠ []) :
    Fits (st.received xs) ys ∧ Linear (st.received xs) ys ∧
      (st.received xs).received ys = st.received (xs ++ ys) := by
  have hcap := st.session.readBuffer.cap_le
  have hfree := h.used_add_le
  have hpos : 0 < ys.length := List.length_pos_iff.mpr hys
  unfold Linear at hlin
  rw [List.length_append] at hfree hlin
  have hfx : Fits st xs := ⟨hxs, by rw [RingBuffer.available_toNat]; omega⟩
  have hlx : Linear st xs := by unfold Linear; omega
  -- the second result starts right behind the first
  have hptr : (st.received xs).session.readBuffer.writePtr =
      st.session.readBuffer.writePtr + xs.length := by
    rw [RingBuffer.writePtr_eq] at hlin
    have hend : st.session.readBuffer.writeP.toNat % st.session.readBuffer.cap + xs.length <
        st.session.readBuffer.cap := by omega
    rw [RingBuffer.writePtr_eq, RingBuffer.writePtr_eq, received_cap, received_writeP hfx,
        RingBuffer.cap, add_mod st.session.readBuffer.pow2, hfx.toNat_length]
    exact cell_before_end hend
  have hfy : Fits (st.received xs) ys := by
    refine ⟨hys, ?_⟩
    rw [RingBuffer.available_toNat, received_used hfx hlx, received_cap]
    omega
  have hly : Linear (st.received xs) ys := by
    unfold Linear
    rw [hptr, received_cap]
    omega
  refine ⟨hfy, hly, ?_⟩
  have hring : ((st.received xs).received ys).session.readBuffer =
      (st.received (xs ++ ys)).session.readBuffer := by
    ext1
    · rw [received_bufferSize, received_bufferSize, received_bufferSize]
    · rw [received_ringBuffer, received_ringBuffer, received_ringBuffer, hptr, store_append]
    · rw [received_writeP hfy, received_writeP hfx, received_writeP h, UInt32.add_assoc,
          List.length_append, UInt32.ofNat_add]
    · rw [received_readP, received_readP, received_readP]
  show ReadState.mk { st.session with readBuffer := _ } st.heap =
    ReadState.mk { st.session with readBuffer := _ } st.heap
  exact congrArg (fun rb => ReadState.mk { st.session with readBuffer := rb } st.heap) hring

end Received

/-! ### How the stream is cut -/

/-- What the peer's stream comes to: the frames passed to the decoder, and the sequence number
    at the end. -/
def receive (table : UInt8 → UInt32) (st : ReadState) (segs : List (List UInt8)) :
    Option (List (List UInt8) × UInt32) :=
  (run (onReadBytes table) st segs).map fun r =>
    (r.1.flatten.map FrameEvent.bytes, r.2.session.crypt.sequenceId)

/-- The decoder, called for the first frame of the ring, stays inside the storage. -/
def NetSession.DecodeFits (s : NetSession) : Prop :=
  s.readBuffer.readPtr + max 6 (2 + s.messageLen.toNat) ≤ s.readBuffer.cap

/-- The bytes lie before the end of the storage, and a frame they complete is all the ring
    holds, with the two bytes the decoder touches behind it still inside the storage. -/
def Tidy (st : ReadState) (bytes : List UInt8) : Prop :=
  Fits st bytes ∧ Linear st bytes ∧
    ((st.received bytes).session.HeadComplete →
      (st.received bytes).session.messageLen.toNat =
        (st.received bytes).session.readBuffer.used.toNat ∧
      (st.received bytes).session.DecodeFits)

instance (s : NetSession) : Decidable s.DecodeFits := inferInstanceAs (Decidable (_ ≤ _))

instance (st : ReadState) (bytes : List UInt8) : Decidable (Tidy st bytes) :=
  inferInstanceAs (Decidable (_ ∧ _ ∧ (_ → _ ∧ _)))

section Segments

variable {st : ReadState} {xs ys : List UInt8}

/-- The length prefix depends on the first two bytes of the ring and on the key. -/
theorem messageLen_congr {s s' : NetSession} (h : 2 ≤ s.readBuffer.used.toNat)
    (h' : 2 ≤ s'.readBuffer.used.toNat) (hkey : s'.crypt.sessionKey = s.crypt.sessionKey)
    (htake : s'.readBuffer.contents.take 2 = s.readBuffer.contents.take 2) :
    s'.messageLen = s.messageLen := by
  have htwo : (2 : UInt32).toNat = 2 := rfl
  have hspec := s.readBuffer.peekRead_spec 2
  have hspec' := s'.readBuffer.peekRead_spec 2
  rw [htwo, if_pos h] at hspec
  rw [htwo, if_pos h'] at hspec'
  unfold NetSession.messageLen NetSession.prereadMessageSize
  rw [hspec, hspec', htake, hkey]

/-- Without a complete frame `on_read` only stores what it received. -/
theorem onReadBytes_quiet (hlin : Linear st xs) (h : ¬ (st.received xs).session.HeadComplete) :
    onReadBytes table st xs = some ([], st.received xs) := by
  rw [onReadBytes_eq hlin, loop_stop (onReadIter_stop h)]

/-- Before the last byte of a tidy result of `recv`, no frame is complete. -/
theorem Tidy.quiet (h : Tidy st (xs ++ ys)) (hxs : xs ≠ []) (hys : ys ≠ []) :
    ¬ (st.received xs).session.HeadComplete := by
  intro hc
  obtain ⟨hfits, hlin, hhead⟩ := h
  obtain ⟨hfy, hly, hsame⟩ := received_append xs hfits hlin hxs hys
  have hpos : 0 < ys.length := List.length_pos_iff.mpr hys
  have hused := received_used hfy hly
  have hcontents := received_contents hfy hly
  rw [hsame] at hused hcontents
  obtain ⟨h2, hle⟩ := hc
  have hlen : (st.received (xs ++ ys)).session.messageLen =
      (st.received xs).session.messageLen := by
    refine messageLen_congr h2 (by omega) rfl ?_
    rw [hcontents, List.take_append_of_le_length]
    rw [RingBuffer.contents_length]
    exact h2
  -- the frame would be complete later as well, with bytes of the next one behind it
  have hall := (hhead ⟨by omega, by rw [hlen]; omega⟩).1
  rw [hlen] at hall
  omega

/-- A tidy step is defined. -/
theorem Tidy.defined (table : UInt8 → UInt32) (h : Tidy st xs) :
    ∃ r, onReadBytes table st xs = some r := by
  obtain ⟨hfits, hlin, hhead⟩ := h
  by_cases hc : (st.received xs).session.HeadComplete
  · obtain ⟨hall, hin⟩ := hhead hc
    have hlt := (st.received xs).session.messageLen.toNat_lt
    have hint := (st.received xs).session.msgLen_toNat
    have h2 := hc.1
    unfold NetSession.DecodeFits at hin
    obtain ⟨d, hd⟩ : ∃ d, (st.received xs).decode table = some d := by
      refine transformBufferToMessage_eq_some ?_ ?_ ?_ ?_
      · omega
      · rw [hint]
        exact hlt
      · rw [hint, RingBuffer.storage_size]
        omega
      · rw [RingBuffer.storage_size]
        omega
    have hnext := onReadIter_next table hc
    rw [hd, Option.map_some] at hnext
    -- the frame was all the ring held: the next pass stops
    have hempty : ¬ ((st.received xs).afterFrame d).session.HeadComplete := by
      intro hc'
      have hused := afterFrame_used hc d
      have := hc'.1
      omega
    obtain ⟨k, hk⟩ : ∃ k, (st.received xs).session.readBuffer.used.toNat = k + 1 :=
      ⟨_, (Nat.succ_pred_eq_of_pos (by omega)).symm⟩
    rw [onReadBytes_eq hlin, hk, loop_next hnext, loop_stop (onReadIter_stop hempty)]
    exact ⟨_, rfl⟩
  · exact ⟨_, onReadBytes_quiet hlin hc⟩

/-- Receiving a tidy result of `recv` is receiving its bytes one at a time. -/
theorem onReadBytes_bytewise (table : UInt8 → UInt32) (h : Tidy st xs) :
    ∃ os t oss, onReadBytes table st xs = some (os, t) ∧
      run (onReadBytes table) st (xs.map fun x => [x]) = some (oss, t) ∧ oss.flatten = os := by
  -- induction on the bytes: the step stays tidy when its first byte has been received
  induction xs generalizing st with
  | nil => exact absurd rfl h.1.1
  | cons x xs ih =>
    by_cases hxs : xs = []
    · subst hxs
      obtain ⟨⟨os, t⟩, hstep⟩ := h.defined table
      refine ⟨os, t, [os], hstep, ?_, ?_⟩
      · exact run_cons_eq_some.mpr ⟨os, t, [], hstep, run_nil t, rfl⟩
      · rw [List.flatten_cons, List.flatten_nil, List.append_nil]
    · have hquiet : ¬ (st.received [x]).session.HeadComplete :=
        Tidy.quiet h (List.cons_ne_nil _ _) hxs
      obtain ⟨hfits, hlin, hhead⟩ := h
      obtain ⟨hfy, hly, hsame⟩ :=
        received_append [x] hfits hlin (List.cons_ne_nil _ _) hxs
      have hlinx : Linear st [x] := by
        unfold Linear at hlin ⊢
        simp only [List.length_cons, List.length_nil] at hlin ⊢
        omega
      have hrest : Tidy (st.received [x]) xs := by
        refine ⟨hfy, hly, ?_⟩
        rw [hsame]
        exact hhead
      obtain ⟨os, t, oss, hstep, hrun, hflat⟩ := ih hrest
      refine ⟨os, t, [] :: oss, ?_, ?_, ?_⟩
      · rw [onReadBytes_eq hly, hsame] at hstep
        rw [onReadBytes_eq hlin]
        exact hstep
      · exact run_cons_eq_some.mpr
          ⟨[], st.received [x], oss, onReadBytes_quiet hlinx hquiet, hrun, rfl⟩
      · rw [List.flatten_cons, List.nil_append]
        exact hflat

/-- A run whose steps are all tidy is the run that receives every byte alone. -/
theorem run_bytewise {segs : List (List UInt8)}
    (h : AllSteps (onReadBytes table) Tidy st segs) :
    ∃ oss t oss', run (onReadBytes table) st segs = some (oss, t) ∧
      run (onReadBytes table) st (segs.flatten.map fun x => [x]) = some (oss', t) ∧
      oss'.flatten = oss.flatten := by
  induction segs generalizing st with
  | nil => exact ⟨[], st, [], rfl, rfl, rfl⟩
  | cons seg segs ih =>
    obtain ⟨os, t, oss₁, hstep, hrun₁, hflat₁⟩ := onReadBytes_bytewise table h.head
    obtain ⟨oss, u, oss₂, hrun, hrun₂, hflat₂⟩ := ih (h.tail hstep)
    refine ⟨os :: oss, u, oss₁ ++ oss₂, ?_, ?_, ?_⟩
    · exact run_cons_eq_some.mpr ⟨os, t, oss, hstep, hrun, rfl⟩
    · rw [List.flatten_cons, List.map_append]
      exact run_append_eq_some hrun₁ hrun₂
    · rw [List.flatten_append, hflat₁, hflat₂, List.flatten_cons]

end Segments

/-- **How a stream is cut does not matter to tidy runs.**  Two ways of cutting one stream whose
    steps are all tidy pass the same frames to the decoder and end with the same sequence
    number. -/
theorem receive_of_tidy (table : UInt8 → UInt32) (st : ReadState) (as bs : List (List UInt8))
    (hstream : as.flatten = bs.flatten) (ha : AllSteps (onReadBytes table) Tidy st as)
    (hb : AllSteps (onReadBytes table) Tidy st bs) :
    ∃ o, receive table st as = some o ∧ receive table st bs = some o := by
  obtain ⟨as', t, cs, hras, hrcs, hac⟩ := run_bytewise ha
  obtain ⟨bs', u, ds, hrbs, hrds, hbd⟩ := run_bytewise hb
  -- both are the run that receives the stream byte by byte
  rw [hstream, hrds] at hrcs
  cases hrcs
  refine ⟨_, by rw [receive, hras, Option.map_some], ?_⟩
  rw [receive, hrbs, Option.map_some, ← hbd, hac]

/-- Two bytes of a frame, then its other two, or first one and then three. -/
theorem receive_of_tidy_four :
    ∃ o, receive initialCrc32Table ⟨.keyed 0 fun _ => 1, []⟩ [[4, 0], [1, 1]] = some o ∧
      receive initialCrc32Table ⟨.keyed 0 fun _ => 1, []⟩ [[4], [0, 1, 1]] = some o :=
  receive_of_tidy _ _ _ _ (by decide) (by decide +kernel) (by decide +kernel)

/-- The promise of the receive path: however the peer's stream is cut, an empty read ring ends
    up passing the same frames to the decoder, with the same sequence number. -/
def SegmentationIndependent (table : UInt8 → UInt32) : Prop :=
  ∀ (st : ReadState) (as bs : List (List UInt8)), st.session.readBuffer.used = 0 →
    as.flatten = bs.flatten → AllSteps (onReadBytes table) Fits st as →
    AllSteps (onReadBytes table) Fits st bs →
    ∃ o, receive table st as = some o ∧ receive table st bs = some o

/-- Two frames of four bytes, `04 00 01 01` each, received one by one or together.  Together,
    decoding the first one alters the length prefix of the second, which then never arrives. -/
theorem segmentationIndependent_fails : ¬ SegmentationIndependent initialCrc32Table := by
  intro h
  obtain ⟨o, ho, ho'⟩ := h ⟨.keyed 0 fun _ => 1, []⟩ [[4, 0, 1, 1], [4, 0, 1, 1]]
    [[4, 0, 1, 1, 4, 0, 1, 1]] (by decide) (by decide) (by decide +kernel) (by decide +kernel)
  have hne : receive initialCrc32Table ⟨.keyed 0 fun _ => 1, []⟩ [[4, 0, 1, 1], [4, 0, 1, 1]] ≠
      receive initialCrc32Table ⟨.keyed 0 fun _ => 1, []⟩ [[4, 0, 1, 1, 4, 0, 1, 1]] := by
    decide +kernel
  exact hne (ho.trans ho'.symm)

/-! ### Which frames become messages -/

/-- The frame passes the checks of the decoder, against the struct as it was when the frame was
    decoded. -/
def FrameEvent.authentic (table : UInt8 → UInt32) (e : FrameEvent) : Bool :=
  frameAuthentic table e.crypt e.storage e.buf e.len.toUInt32.toInt32

/-- If the loop is about to take a frame while the read queue has room, the frame passes the
    checks of the decoder. -/
def ReadState.HeadChecked (table : UInt8 → UInt32) (st : ReadState) : Prop :=
  st.session.HeadComplete → st.session.readQueue.size < MAX_QUEUE_LEN.toNat →
    st.frameEvent.authentic table = true

/-- All the frames that `on_read` takes while the read queue has room pass the checks of the
    decoder. -/
def Checked (table : UInt8 → UInt32) (st : ReadState) (bytes : List UInt8) : Prop :=
  AllPasses (onReadIter table) (ReadState.HeadChecked table)
    ((st.received bytes).session.readBuffer.used.toNat + 1) (st.received bytes)

instance (table : UInt8 → UInt32) : DecidablePred (ReadState.HeadChecked table) := fun _ =>
  inferInstanceAs (Decidable (_ → _ → _))

instance (table : UInt8 → UInt32) (st : ReadState) (bytes : List UInt8) :
    Decidable (Checked table st bytes) :=
  inferInstanceAs (Decidable (AllPasses _ _ _ _))

section Messages

variable {st t : ReadState}

/-- A message is stored exactly when the read queue has room. -/
theorem frameEvent_stored :
    st.frameEvent.stored = true ↔ st.session.readQueue.size < MAX_QUEUE_LEN.toNat := by
  have hspec := st.session.readQueue.pushBack_spec isPow2_maxQueueLen st.heap.length
  show (st.session.readQueue.pushBack st.heap.length).1 = true ↔ _
  by_cases h : st.session.readQueue.size < MAX_QUEUE_LEN.toNat
  · exact iff_of_true (hspec.1 h).1 h
  · rw [hspec.2 h]
    exact iff_of_false Bool.false_ne_true h

/-- The pass that takes a frame adds its message to the read queue, if it is stored. -/
theorem afterFrame_waiting (d : Decoded) :
    (st.afterFrame d).session.readQueue.waiting =
      st.session.readQueue.waiting ++
        ([st.frameEvent].filter (·.stored)).map (·.message) := by
  have hspec := st.session.readQueue.pushBack_spec isPow2_maxQueueLen st.heap.length
  show (st.session.readQueue.pushBack st.heap.length).2.waiting = _
  by_cases h : st.session.readQueue.size < MAX_QUEUE_LEN.toNat
  · rw [List.filter_cons_of_pos (frameEvent_stored.mpr h)]
    exact (hspec.1 h).2
  · rw [List.filter_cons_of_neg (fun hs => h (frameEvent_stored.mp hs)), hspec.2 h]
    exact (List.append_nil _).symm

/-- What the frame loop adds to the read queue. -/
theorem loop_waiting {n : ℕ} {es : List FrameEvent}
    (h : loop (onReadIter table) n st = some (es, t)) :
    t.session.readQueue.waiting =
      st.session.readQueue.waiting ++ (es.filter (·.stored)).map (·.message) := by
  induction n generalizing st es with
  | zero => cases h
  | succ n ih =>
    by_cases hc : st.session.HeadComplete
    · cases hd : st.decode table with
      | none =>
        rw [loop, onReadIter_next table hc, hd] at h
        cases h
      | some d =>
        have hnext := onReadIter_next table hc
        rw [hd, Option.map_some] at hnext
        rw [loop_next hnext, Option.map_eq_some_iff] at h
        obtain ⟨⟨es', t'⟩, hrest, heq⟩ := h
        cases heq
        -- the frame of this pass is queued in front of those of the later ones
        rw [ih hrest, afterFrame_waiting, List.append_assoc, ← List.map_append,
            ← List.filter_append, List.singleton_append]
    · rw [loop_stop (onReadIter_stop hc)] at h
      cases h
      exact (List.append_nil _).symm

/-- What `on_read` adds to the read queue are the messages of the frames it stored. -/
theorem onReadBytes_waiting {bytes : List UInt8} {es : List FrameEvent}
    (h : onReadBytes table st bytes = some (es, t)) :
    t.session.readQueue.waiting =
      st.session.readQueue.waiting ++ (es.filter (·.stored)).map (·.message) := by
  rw [onReadBytes_eq (onReadBytes_linear h)] at h
  have hloop := loop_waiting h
  exact hloop

/-- So are those that a whole run adds. -/
theorem run_waiting {segs : List (List UInt8)} {oss : List (List FrameEvent)}
    (h : run (onReadBytes table) st segs = some (oss, t)) :
    t.session.readQueue.waiting =
      st.session.readQueue.waiting ++ (oss.flatten.filter (·.stored)).map (·.message) := by
  induction segs generalizing st oss with
  | nil =>
    cases h
    exact (List.append_nil _).symm
  | cons seg segs ih =>
    obtain ⟨es, u, oss', hstep, hrun, rfl⟩ := run_cons_eq_some.mp h
    rw [ih hrun, onReadBytes_waiting hstep, List.append_assoc, ← List.map_append,
        ← List.filter_append, List.flatten_cons]

/-- The frames that one call of `on_read` stored are authentic exactly when it met none that
    is not while the queue had room. -/
theorem onReadBytes_authentic {bytes : List UInt8} {es : List FrameEvent}
    (h : onReadBytes table st bytes = some (es, t)) :
    (∀ e ∈ es, e.stored = true → e.authentic table = true) ↔ Checked table st bytes := by
  rw [onReadBytes_eq (onReadBytes_linear h)] at h
  refine loop_forall ?_ ?_ h
  · -- a pass that stops took no frame
    intro u v hstop hc
    exact absurd hc (onReadIter_eq_stop hstop).1
  · intro u e v hnext
    obtain ⟨hc, rfl, -⟩ := onReadIter_eq_next hnext
    show _ ↔ (_ → _ → _)
    rw [frameEvent_stored]
    exact ⟨fun h _ => h, fun h => h hc⟩

end Messages

/-- **Which frames become messages.**  The messages that a run of `on_read` adds to the read
    queue are those of the frames it stored, and these are all authentic exactly when every frame
    taken while the queue had room is. -/
theorem authentic_iff_checked (table : UInt8 → UInt32) (st t : ReadState)
    (segs : List (List UInt8)) (oss : List (List FrameEvent))
    (hrun : run (onReadBytes table) st segs = some (oss, t)) :
    t.session.readQueue.waiting =
        st.session.readQueue.waiting ++ (oss.flatten.filter (·.stored)).map (·.message) ∧
      ((∀ e ∈ oss.flatten, e.stored = true → e.authentic table = true) ↔
        AllSteps (onReadBytes table) (Checked table) st segs) := by
  refine ⟨run_waiting hrun, ?_⟩
  rw [← forall_outputs_iff (fun _ _ _ _ => onReadBytes_authentic) hrun]
  constructor
  · intro h es hes e he
    exact h e (List.mem_flatten.mpr ⟨es, hes, he⟩)
  · intro h e he
    obtain ⟨es, hes, he⟩ := List.mem_flatten.mp he
    exact h es hes e he

/-- A valid frame of an empty message, as it comes in for the session
    `NetSession.keyed 0 fun _ => 1`. -/
def emptyFrame : List UInt8 := [12, 0, 1, 1, 1, 1, 1, 1, 1, 1, 188, 36, 65, 197]

/-- A frame of four bytes that fails its CRC, then half of another one. -/
theorem authentic_iff_checked_four :
    ∃ oss t, run (onReadBytes initialCrc32Table) ⟨.keyed 0 fun _ => 1, []⟩
        [[4, 0], [1, 1], [4, 0]] = some (oss, t) ∧
      t.session.readQueue.waiting = [] ++ (oss.flatten.filter (·.stored)).map (·.message) ∧
      ((∀ e ∈ oss.flatten, e.stored = true → e.authentic initialCrc32Table = true) ↔
        AllSteps (onReadBytes initialCrc32Table) (Checked initialCrc32Table)
          ⟨.keyed 0 fun _ => 1, []⟩ [[4, 0], [1, 1], [4, 0]]) := by
  obtain ⟨⟨oss, t⟩, hrun⟩ : ∃ r, run (onReadBytes initialCrc32Table) ⟨.keyed 0 fun _ => 1, []⟩
      [[4, 0], [1, 1], [4, 0]] = some r := Option.isSome_iff_exists.mp (by decide +kernel)
  exact ⟨oss, t, hrun, authentic_iff_checked _ _ _ _ _ hrun⟩

/-- The promise of the receive path: a message on the read queue comes from a frame that passed
    the checks of the decoder. -/
def OnlyAuthentic (table : UInt8 → UInt32) : Prop :=
  ∀ (st t : ReadState) (segs : List (List UInt8)) (oss : List (List FrameEvent)),
    run (onReadBytes table) st segs = some (oss, t) →
    ∀ e ∈ oss.flatten, e.stored = true → e.authentic table = true

/-- The frame `04 00 01 01` fails its CRC, and its message is queued like any other. -/
theorem onlyAuthentic_fails : ¬ OnlyAuthentic initialCrc32Table := by
  intro h
  obtain ⟨⟨oss, t⟩, hrun⟩ : ∃ r, run (onReadBytes initialCrc32Table) ⟨.keyed 0 fun _ => 1, []⟩
      [[4, 0, 1, 1]] = some r := Option.isSome_iff_exists.mp (by decide +kernel)
  have hbad : ((run (onReadBytes initialCrc32Table) ⟨.keyed 0 fun _ => 1, []⟩
      [[4, 0, 1, 1]]).map fun r => r.1.flatten.all fun e =>
        !e.stored || e.authentic initialCrc32Table) = some false := by decide +kernel
  rw [hrun, Option.map_some, Option.some_inj, List.all_eq_false] at hbad
  obtain ⟨e, he, hnot⟩ := hbad
  have hgood := h _ _ _ _ hrun e he
  apply hnot
  cases hs : e.stored with
  | false => rfl
  | true => rw [hgood hs]; rfl

end LeoNet
