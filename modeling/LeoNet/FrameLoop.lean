import LeoNet.ReceivePath

namespace LeoNet

open Memory Loop Machine

/-!
# The frame loop of `on_read` — when it ends, and what it leaves in the ring

Nothing in the loop's body looks at what the decoder found, so the loop is studied around a
decoder of any results, `frameIter`.

* `frameIter_shrinks` — a pass takes bytes off the ring unless the length it read is zero, and
  `terminates_iff_nonzero`: hence that is what the loop needs in order to end;
* `onReadSession_full` — the ring is full when `on_read` returns exactly when `recv` filled it
  behind a length no frame in it can have, and hence `neverFull_iff`;
* `tooLong_waits` — such a length is never rejected.
-/

variable {table : UInt8 → UInt32}

/-! ### Termination -/

/-- The number of bytes in the read ring. -/
def ReadState.bytes (st : ReadState) : ℕ := st.session.readBuffer.used.toNat

/-- The loop is not about to take a frame of length zero. -/
def ReadState.LengthNonzero (st : ReadState) : Prop :=
  st.session.HeadComplete → st.session.messageLen ≠ 0

instance : DecidablePred ReadState.LengthNonzero := fun _ =>
  inferInstanceAs (Decidable (_ → _ ≠ _))

/-- The frame loop around a decoder that returns what it likes. -/
abbrev anyDecoder (decoder : ReadState → Decoded) :
    ReadState → Option (Pass FrameEvent ReadState) :=
  frameIter fun st => some (decoder st)

/-- The promise of the frame loop: it ends, and each of its passes but the last leaves fewer
    bytes in the ring. -/
def Terminates (decoder : ReadState → Decoded) (st : ReadState) : Prop :=
  ∃ n r, loop (anyDecoder decoder) n st = some r ∧
    AllPasses (anyDecoder decoder) (Shrinks (anyDecoder decoder) ReadState.bytes) n st

section Termination

variable {decoder : ReadState → Decoded} {st : ReadState}

/-- A pass with a complete head takes a frame. -/
theorem anyDecoder_next (decoder : ReadState → Decoded) (h : st.session.HeadComplete) :
    anyDecoder decoder st = some (.next st.frameEvent (st.afterFrame (decoder st))) :=
  frameIter_next _ h

/-- Every pass is defined. -/
theorem anyDecoder_defined (decoder : ReadState → Decoded) (st : ReadState) :
    ∃ p, anyDecoder decoder st = some p := by
  by_cases hc : st.session.HeadComplete
  · exact ⟨_, anyDecoder_next decoder hc⟩
  · exact ⟨_, frameIter_stop _ hc⟩

/-- A pass takes bytes off the ring unless the length it read is zero. -/
theorem frameIter_shrinks (decoder : ReadState → Decoded) (st : ReadState) :
    Shrinks (anyDecoder decoder) ReadState.bytes st ↔ st.LengthNonzero := by
  constructor
  · intro h hc hzero
    have hlt := h _ _ (anyDecoder_next decoder hc)
    have hused := afterFrame_used hc (decoder st)
    unfold ReadState.bytes at hlt
    rw [hused, hzero] at hlt
    exact absurd hlt (Nat.lt_irrefl _)
  · intro h e t hnext
    obtain ⟨hc, -, d, -, rfl⟩ := frameIter_eq_next hnext
    have hpos : st.session.messageLen.toNat ≠ 0 := fun hzero =>
      h hc (UInt16.toNat_inj.mp hzero)
    have hle := hc.2
    unfold ReadState.bytes
    rw [afterFrame_used hc]
    omega

end Termination

/-- **The frame loop ends exactly when it meets no length of zero.**  Whatever the decoder
    returns, the loop ends with fewer bytes in the ring at every further pass exactly when no
    pass takes a frame whose masked length is zero. -/
theorem terminates_iff_nonzero (decoder : ReadState → Decoded) (st : ReadState) :
    Terminates decoder st ↔
      AllPasses (anyDecoder decoder) ReadState.LengthNonzero (st.bytes + 1) st := by
  rw [← allPasses_congr (I := fun _ => True) (fun s _ => frameIter_shrinks decoder s)
    (fun _ _ _ _ _ => trivial) trivial]
  constructor
  · rintro ⟨n, ⟨es, t⟩, hrun, hall⟩
    exact allPasses_of_loop hrun hall _
  · intro hall
    obtain ⟨r, hr⟩ := loop_of_shrinks (anyDecoder_defined decoder) (Nat.lt_succ_self _) hall
    exact ⟨_, r, hr, hall⟩

/-- What the decoder does with a frame that fails its CRC, when decrypting changed nothing. -/
def ReadState.refuse (st : ReadState) : Decoded :=
  ⟨0, st.session.crypt, NetMessage.new, st.session.readBuffer.storage⟩

/-- A frame of length zero that is refused stays at the head of the ring, and the loop goes round
    for ever. -/
theorem refuse_never_ends {st : ReadState} (hc : st.session.HeadComplete)
    (hzero : st.session.messageLen = 0) (n : ℕ) :
    loop (anyDecoder ReadState.refuse) n st = none := by
  refine loop_of_next (C := fun st => st.session.HeadComplete ∧ st.session.messageLen = 0)
    ?_ ⟨hc, hzero⟩ n
  rintro st ⟨hc, hzero⟩
  refine ⟨_, _, anyDecoder_next _ hc, ?_⟩
  -- the pass has changed neither the ring nor the key
  have hring : (st.afterFrame st.refuse).session.readBuffer = st.session.readBuffer := by
    show ((st.session.readBuffer.setStorage st.session.readBuffer.storage).seekRead
      st.session.messageLen.toUInt32).2 = _
    have hlen : (0 : UInt16).toUInt32.toNat = 0 := rfl
    rw [hzero, RingBuffer.setStorage_storage]
    ext1
    · exact (RingBuffer.seekRead_frame _ _).1
    · exact (RingBuffer.seekRead_frame _ _).2.1
    · exact (RingBuffer.seekRead_frame _ _).2.2
    · rw [RingBuffer.seekRead_readP _ (by omega)]
      exact UInt32.add_zero _
  have hlen : (st.afterFrame st.refuse).session.messageLen = st.session.messageLen := by
    unfold NetSession.messageLen NetSession.prereadMessageSize
    rw [hring]
    rfl
  unfold NetSession.HeadComplete
  rw [hlen, hring]
  exact ⟨hc, hzero⟩

/-- A session with key `0` that has received `00 00`. -/
def zeroLength : ReadState := (⟨.keyed 0 fun _ => 1, []⟩ : ReadState).received [0, 0]

/-- Two zero bytes keep the loop going for ever. -/
theorem terminates_fails : ¬ Terminates ReadState.refuse zeroLength := by
  rintro ⟨n, r, hrun, -⟩
  rw [refuse_never_ends (by decide +kernel) (by decide +kernel)] at hrun
  cases hrun

/-! ### A full ring -/

/-- `on_read`, on the session it found. -/
def onReadSession (table : UInt8 → UInt32) (st : ReadState) :
    RecvResult → Option (List FrameEvent × ReadState)
  | .bytes (b :: bs) => onReadBytes table st (b :: bs)
  | _ => some ([], st)

/-- `on_read` does to the session behind the socket what `onReadSession` says. -/
theorem onRead_session {g : GameServer} {fd : ℤ} {session : SessionPtr}
    (hfound : g.manager.getOneSession fd = some (some session)) (result : RecvResult) :
    g.onRead table fd result =
      (onReadSession table ⟨g.manager.mallocSession session, g.heap⟩ result).map fun r =>
        (r.1, ⟨g.manager.modifySession session fun _ => r.2.session, r.2.heap⟩) := by
  have hsame : g.manager.modifySession session (fun _ => g.manager.mallocSession session) =
      g.manager := by
    unfold SessionManager.modifySession
    rw [Function.update_eq_self]
  unfold GameServer.onRead
  rw [hfound, Option.bind_some]
  rcases result with (_ | ⟨b, bs⟩) | _
  · simp only [onReadSession, Option.map_some, hsame]
  · rfl
  · simp only [onReadSession, Option.map_some, hsame]

/-- `recv` returned no more bytes than it had been asked for. -/
def RecvFits (st : ReadState) : RecvResult → Prop
  | .bytes bs => bs.length ≤ st.session.readBuffer.available.toNat
  | .error => True

/-- `recv` fills the ring, and the length that heads it is none that a frame in it can have. -/
def FillsBehindLength (st : ReadState) : RecvResult → Prop
  | .bytes bs =>
    st.session.readBuffer.used.toNat + bs.length = st.session.readBuffer.cap ∧
      st.session.readBuffer.cap < (st.received bs).session.messageLen.toNat
  | .error => False

instance (st : ReadState) : DecidablePred (RecvFits st) := fun r =>
  match r with
  | .bytes _ => inferInstanceAs (Decidable (_ ≤ _))
  | .error => inferInstanceAs (Decidable True)

instance (st : ReadState) : DecidablePred (FillsBehindLength st) := fun r =>
  match r with
  | .bytes _ => inferInstanceAs (Decidable (_ ∧ _))
  | .error => inferInstanceAs (Decidable False)

section Full

variable {st t : ReadState} {es : List FrameEvent}

/-- The ring is full when it holds as many bytes as it has cells. -/
theorem full_iff (r : RingBuffer) : r.full = true ↔ r.used.toNat = r.cap := by
  rw [RingBuffer.full, beq_iff_eq, ← UInt32.toNat_inj]
  exact eq_comm

/-- A frame leaves the size of the ring alone. -/
theorem afterFrame_cap (d : Decoded) :
    (st.afterFrame d).session.readBuffer.cap = st.session.readBuffer.cap :=
  congrArg UInt32.toNat (RingBuffer.seekRead_frame _ _).1

/-- The loop leaves the capacity alone. -/
theorem loop_cap {n : ℕ} (h : loop (onReadIter table) n st = some (es, t)) :
    t.session.readBuffer.cap = st.session.readBuffer.cap := by
  refine loop_inv (I := fun u => u.session.readBuffer.cap = st.session.readBuffer.cap)
    ?_ ?_ rfl h
  · intro u v hu hstop
    rw [(onReadIter_eq_stop hstop).2, hu]
  · intro u e v hu hnext
    obtain ⟨-, -, d, -, rfl⟩ := onReadIter_eq_next hnext
    rw [afterFrame_cap, hu]

/-- The loop leaves no more bytes in the ring than it found, and fewer when it took a frame. -/
theorem loop_used_le {n : ℕ} (h : loop (onReadIter table) n st = some (es, t)) :
    t.session.readBuffer.used.toNat ≤ st.session.readBuffer.used.toNat ∧
      (st.session.HeadComplete →
        t.session.readBuffer.used.toNat < st.session.readBuffer.used.toNat) := by
  -- each frame taken off leaves fewer bytes, and the pass that ends the loop leaves them all
  induction n generalizing st es with
  | zero => cases h
  | succ n ih =>
    rcases hb : onReadIter table st with _ | ⟨u⟩ | ⟨e, u⟩
    · rw [loop, hb] at h
      cases h
    · rw [loop_stop hb] at h
      cases h
      obtain ⟨hc, rfl⟩ := onReadIter_eq_stop hb
      exact ⟨le_refl _, fun hc' => absurd hc' hc⟩
    · rw [loop_next hb, Option.map_eq_some_iff] at h
      obtain ⟨⟨es', t'⟩, hrest, heq⟩ := h
      cases heq
      have hlt := onReadIter_used hb
      have hle := (ih hrest).1
      exact ⟨by omega, fun _ => by omega⟩

/-- **When `on_read` returns with a full ring.**  From a ring with room, exactly when `recv`
    filled it behind a length that no frame in it can have. -/
theorem onReadSession_full {result : RecvResult}
    (hsize : st.session.readBuffer.bufferSize = MAX_BUFFER_LEN)
    (hroom : st.session.readBuffer.full = false) (hfits : RecvFits st result)
    (h : onReadSession table st result = some (es, t)) :
    t.session.readBuffer.bufferSize = MAX_BUFFER_LEN ∧
      (t.session.readBuffer.full = false ↔ ¬ FillsBehindLength st result) := by
  have hcap : st.session.readBuffer.cap = 4096 := congrArg UInt32.toNat hsize
  have hnotfull : st.session.readBuffer.used.toNat ≠ st.session.readBuffer.cap := by
    intro heq
    rw [(full_iff _).mpr heq] at hroom
    cases hroom
  rcases result with (_ | ⟨b, bs⟩) | _
  · -- the peer has closed the connection
    cases h
    refine ⟨hsize, iff_of_true hroom fun hbad => hnotfull ?_⟩
    exact hbad.1
  · have hfit : Fits st (b :: bs) := ⟨List.cons_ne_nil _ _, hfits⟩
    have hlin := onReadBytes_linear h
    -- what `recv` returned is in the ring before the loop starts
    have hrun : loop (onReadIter table) _ (st.received (b :: bs)) = some (es, t) :=
      (onReadBytes_eq hlin).symm.trans h
    have hused := received_used hfit hlin
    have hle := (st.received (b :: bs)).session.readBuffer.used_toNat_le
    have hcapt : t.session.readBuffer.cap = 4096 := by
      rw [loop_cap hrun, received_cap, hcap]
    refine ⟨UInt32.toNat_inj.mp hcapt, ?_⟩
    rw [Bool.eq_false_iff, Ne, full_iff, hcapt]
    refine not_congr ?_
    show _ ↔ st.session.readBuffer.used.toNat + (b :: bs).length = st.session.readBuffer.cap ∧ _
    rw [hcap, ← hused]
    rw [received_cap, hcap] at hle
    obtain ⟨hshrink, hstrict⟩ := loop_used_le hrun
    constructor
    · -- a full ring has lost nothing, so that no frame was complete
      intro hfull
      refine ⟨by omega, Nat.lt_of_not_le fun hlen => ?_⟩
      have := hstrict ⟨by omega, by omega⟩
      omega
    · rintro ⟨hfull, hlen⟩
      have hquiet : ¬ (st.received (b :: bs)).session.HeadComplete := fun hc => by
        have := hc.2
        omega
      rw [loop_stop (onReadIter_stop hquiet)] at hrun
      cases hrun
      exact hfull
  · cases h
    exact ⟨hsize, iff_of_true hroom not_false⟩

end Full

/-- **When the receive side wedges.**  In a run of `on_read` that starts with room in the ring,
    the ring has room whenever `on_read` returns exactly when no call of `recv` fills it behind a
    length that no frame in it can have. -/
theorem neverFull_iff (table : UInt8 → UInt32) (st t : ReadState) (results : List RecvResult)
    (oss : List (List FrameEvent)) (hsize : st.session.readBuffer.bufferSize = MAX_BUFFER_LEN)
    (hroom : st.session.readBuffer.full = false)
    (hfits : AllSteps (onReadSession table) RecvFits st results)
    (hrun : run (onReadSession table) st results = some (oss, t)) :
    AllTransitions (onReadSession table) (fun _ _ _ t => t.session.readBuffer.full = false)
        st results ↔
      AllSteps (onReadSession table) (fun st result => ¬ FillsBehindLength st result)
        st results := by
  refine allTransitions_iff_allSteps
    (I := fun st => st.session.readBuffer.bufferSize = MAX_BUFFER_LEN ∧
      st.session.readBuffer.full = false) ?_ ⟨hsize, hroom⟩ hfits hrun
  rintro st result es t ⟨hsize, hroom⟩ hfit hstep
  obtain ⟨hsize', hiff⟩ := onReadSession_full hsize hroom hfit hstep
  exact ⟨hiff, fun hgood => ⟨hsize', hiff.mpr hgood⟩⟩

/-- A ring that is all but full behind a length that no frame in it can have, then nothing, and then
    the last byte. -/
def almostFull : List RecvResult := [.bytes (List.replicate 4095 0xff), .error, .bytes [0xff]]

/-- The last byte fills the ring behind that length. -/
theorem neverFull_iff_almostFull :
    ∃ oss t, run (onReadSession initialCrc32Table) ⟨.keyed 0 fun _ => 1, []⟩ almostFull =
        some (oss, t) ∧
      (AllTransitions (onReadSession initialCrc32Table)
          (fun _ _ _ t => t.session.readBuffer.full = false) ⟨.keyed 0 fun _ => 1, []⟩ almostFull ↔
        AllSteps (onReadSession initialCrc32Table)
          (fun st result => ¬ FillsBehindLength st result) ⟨.keyed 0 fun _ => 1, []⟩
          almostFull) := by
  obtain ⟨⟨oss, t⟩, hrun⟩ : ∃ r, run (onReadSession initialCrc32Table)
      ⟨.keyed 0 fun _ => 1, []⟩ almostFull = some r :=
    Option.isSome_iff_exists.mp (by decide +kernel)
  exact ⟨oss, t, hrun, neverFull_iff _ _ _ _ _ rfl (by decide) (by decide +kernel) hrun⟩

/-- The promise of the receive side: in runs from a fresh session, whatever its key, `on_read`
    never returns with a full ring. -/
def NeverFull (table : UInt8 → UInt32) : Prop :=
  ∀ (mem : RawSession) (results : List RecvResult),
    AllSteps (onReadSession table) RecvFits ⟨.new mem, []⟩ results →
    AllTransitions (onReadSession table) (fun _ _ _ t => t.session.readBuffer.full = false)
      ⟨.new mem, []⟩ results

/-- With key `0`, `4096` bytes of `ff` fill the ring behind the length `65535`. -/
theorem neverFull_fails : ¬ NeverFull initialCrc32Table := by
  intro h
  obtain ⟨rest, hrest⟩ : ∃ rest : List UInt8, rest.length = 4094 :=
    ⟨List.replicate 4094 0xff, List.length_replicate⟩
  set bytes : List UInt8 := 0xff :: 0xff :: rest
  obtain ⟨st, hst⟩ : ∃ st : ReadState, st = ⟨.new .zeroed, []⟩ := ⟨_, rfl⟩
  have havail : st.session.readBuffer.available.toNat = 4096 := by rw [hst]; decide
  have hempty : st.session.readBuffer.used.toNat = 0 := by rw [hst]; decide
  have hptr : st.session.readBuffer.writePtr = 0 := by rw [hst]; decide
  have hcap : st.session.readBuffer.cap = 4096 := by rw [hst]; decide
  have hkey : (st.session.crypt.sessionKey &&& 0xffff).toUInt16 = 0 := by rw [hst]; decide
  have hlength : bytes.length = 4096 := by
    rw [List.length_cons, List.length_cons, hrest]
  have hfit : Fits st bytes := ⟨List.cons_ne_nil _ _, by rw [hlength, havail]⟩
  have hlin : Linear st bytes := by
    unfold Linear
    rw [hptr, hlength, hcap]
  have hused : (st.received bytes).session.readBuffer.used.toNat = 4096 := by
    rw [received_used hfit hlin, hlength, hempty]
  -- the length prefix is `ff ff`
  have hlen : (st.received bytes).session.messageLen = 0xffff := by
    have hspec := (st.received bytes).session.readBuffer.peekRead_spec 2
    have htwo : (2 : UInt32).toNat = 2 := rfl
    have hnil : st.session.readBuffer.contents = [] := by
      rw [← List.length_eq_zero_iff, RingBuffer.contents_length, hempty]
    rw [htwo, if_pos (by omega), received_contents hfit hlin, hnil, List.nil_append] at hspec
    unfold NetSession.messageLen NetSession.prereadMessageSize
    rw [hspec]
    show _ ^^^ (st.session.crypt.sessionKey &&& 0xffff).toUInt16 = _
    have htake : List.take 2 bytes = [0xff, 0xff] := rfl
    rw [hkey, htake]
    decide
  have hquiet : ¬ (st.received bytes).session.HeadComplete := by
    rintro ⟨-, hle⟩
    rw [hused, hlen] at hle
    exact absurd hle (by decide)
  have hstep : onReadSession initialCrc32Table st (.bytes bytes) =
      some ([], st.received bytes) := onReadBytes_quiet hlin hquiet
  have hbad := h .zeroed [.bytes bytes]
  rw [← hst, AllSteps, AllTransitions, hstep] at hbad
  have hfull : (st.received bytes).session.readBuffer.full = true :=
    (full_iff _).mpr (by rw [hused, received_cap, hcap])
  rw [(hbad ⟨hfit.2, trivial⟩).1] at hfull
  cases hfull

/-! ### What never fits is waited for -/

/-- The length that heads the ring is none that a frame in it can have. -/
def NetSession.HeadTooLong (s : NetSession) : Prop :=
  2 ≤ s.readBuffer.used.toNat ∧ s.readBuffer.cap < s.messageLen.toNat

/-- One call of `on_read` takes nothing off such a ring. -/
theorem onReadSession_tooLong {st t : ReadState} {result : RecvResult} {es : List FrameEvent}
    (h : st.session.HeadTooLong) (hfits : RecvFits st result)
    (hstep : onReadSession table st result = some (es, t)) :
    es = [] ∧ t.session.HeadTooLong ∧ t.session.messageLen = st.session.messageLen ∧
      st.session.readBuffer.contents <+: t.session.readBuffer.contents := by
  obtain ⟨h2, hlong⟩ := h
  rcases result with (_ | ⟨b, bs⟩) | _
  · cases hstep
    exact ⟨rfl, ⟨h2, hlong⟩, rfl, List.prefix_rfl⟩
  · have hfit : Fits st (b :: bs) := ⟨List.cons_ne_nil _ _, hfits⟩
    have hlin := onReadBytes_linear hstep
    have hused := received_used hfit hlin
    have hcontents := received_contents hfit hlin
    have hle := (st.received (b :: bs)).session.readBuffer.used_toNat_le
    rw [received_cap] at hle
    -- the two bytes of the length stay where they are
    have hlen : (st.received (b :: bs)).session.messageLen = st.session.messageLen := by
      refine messageLen_congr h2 (by omega) rfl ?_
      rw [hcontents, List.take_append_of_le_length]
      rw [RingBuffer.contents_length]
      exact h2
    have hquiet : ¬ (st.received (b :: bs)).session.HeadComplete := by
      rintro ⟨-, hcomplete⟩
      rw [hlen] at hcomplete
      omega
    cases (onReadBytes_quiet hlin hquiet).symm.trans hstep
    refine ⟨rfl, ⟨by omega, ?_⟩, hlen, ?_⟩
    · rw [hlen, received_cap]
      exact hlong
    · rw [hcontents]
      exact List.prefix_append _ _
  · cases hstep
    exact ⟨rfl, ⟨h2, hlong⟩, rfl, List.prefix_rfl⟩

/-- **A length that never fits is waited for.**  Once the length that heads the ring is greater than
    the ring, no run of `on_read` rejects it: no frame is taken any more, the length stays, and what
    is received piles up behind it. -/
theorem tooLong_waits {st t : ReadState} {results : List RecvResult} {oss : List (List FrameEvent)}
    (h : st.session.HeadTooLong) (hfits : AllSteps (onReadSession table) RecvFits st results)
    (hrun : run (onReadSession table) st results = some (oss, t)) :
    (∀ es ∈ oss, es = []) ∧ t.session.HeadTooLong ∧
      t.session.messageLen = st.session.messageLen ∧
      st.session.readBuffer.contents <+: t.session.readBuffer.contents := by
  constructor
  · refine forall_outputs_of_inv (I := fun u => u.session.HeadTooLong) ?_ h hfits hrun
    intro u result es v hu hfit hstep
    obtain ⟨hnone, hv, -⟩ := onReadSession_tooLong hu hfit hstep
    exact ⟨hnone, hv⟩
  · refine run_inv (I := fun u => u.session.HeadTooLong ∧
      u.session.messageLen = st.session.messageLen ∧
      st.session.readBuffer.contents <+: u.session.readBuffer.contents) ?_
      ⟨h, rfl, List.prefix_rfl⟩ hfits hrun
    rintro u result es v ⟨hu, hlen, hprefix⟩ hfit hstep
    obtain ⟨-, hv, hlen', hprefix'⟩ := onReadSession_tooLong hu hfit hstep
    exact ⟨hv, hlen'.trans hlen, hprefix.trans hprefix'⟩

end LeoNet
