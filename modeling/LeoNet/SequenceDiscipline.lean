import LeoNet.FrameExtent

namespace LeoNet

open Memory Machine

/-!
# Sequence numbers over many frames

`transform_buffer_to_message` counts `sequence_id` up for the frames that pass both of its checks.
Here it is called over and over, with whatever buffers arrive.

* `decodeStep_spec` — a call counts its frame, which then carried the sequence number expected
  next, or changes nothing;
* `sequenceDiscipline` — so that over a whole run the counted frames carried the successive
  sequence numbers, and the places of two counted frames of the same bytes differ by at least
  `2 ^ 32`.
-/

/-- One call of the decoder: the message, the buffer's object, `buf` and `msg_len`. -/
structure DecodeCall where
  message : NetMessage
  buffer : Block UInt8
  buf : ℕ
  msgLen : Int32

namespace DecodeCall

/-- The buffer holds the length, the sequence number and the CRC word of the frame. -/
def LongEnough (c : DecodeCall) : Prop :=
  4 ≤ c.msgLen.toInt ∧ c.buf + 2 + c.msgLen.toUInt32.toNat ≤ c.buffer.size

instance : DecidablePred LongEnough := fun _ => inferInstanceAs (Decidable (_ ∧ _))

/-- The bytes received are the same: the length and as many bytes behind it. -/
def SameBytes (c c' : DecodeCall) : Prop :=
  c.msgLen = c'.msgLen ∧
    load c.buffer.byte c.buf (2 + c.msgLen.toUInt32.toNat) =
      load c'.buffer.byte c'.buf (2 + c'.msgLen.toUInt32.toNat)

/-- The sequence field of the frame, decrypted. -/
def sequenceField (c : DecodeCall) (key : ℕ → UInt8) : Option UInt32 :=
  (xorDecrypt c.buffer (c.buf + 2) c.msgLen.toUInt32 key).bind fun b =>
    (b.readWord 4 (c.buf + 2)).map UInt32.ofNat

end DecodeCall

/-- One call, as a step of `about_crypt`; it puts out the call when its frame passed the CRC test
    and the sequence test. -/
def decodeStep (table : UInt8 → UInt32) (ac : AboutCrypt) (c : DecodeCall) :
    Option (Option DecodeCall × AboutCrypt) :=
  (transformBufferToMessage table ac c.message c.buffer c.buf c.msgLen).map fun d =>
    (if frameAuthentic table ac c.buffer c.buf c.msgLen then some c else none, d.crypt)

/-- `about_crypt` after `n` more frames have been counted. -/
def AboutCrypt.counted (ac : AboutCrypt) (n : ℕ) : AboutCrypt :=
  { ac with sequenceId := ac.sequenceId + UInt32.ofNat n }

/-- What holds of a run that puts out `outs` and ends in `ac'`. -/
structure KeepsSequence (table : UInt8 → UInt32) (ac : AboutCrypt) (calls : List DecodeCall)
    (outs : List (Option DecodeCall)) (ac' : AboutCrypt) : Prop where
  /-- The number of counted frames is added to `sequence_id`, and nothing else changes. -/
  final : ac' = ac.counted outs.reduceOption.length
  /-- The counted frames carried the successive sequence numbers. -/
  carried : outs.reduceOption.map (·.sequenceField ac.xorKey) =
    (List.range outs.reduceOption.length).map fun j =>
      some ((ac.sequenceId + UInt32.ofNat j) ^^^ ac.sessionKey)
  /-- A call whose frame is not counted changes nothing; no call changes a key. -/
  frame : AllTransitions (decodeStep table) (fun ac _ out ac' => (out = none → ac' = ac) ∧
    ac'.sessionKey = ac.sessionKey ∧ ac'.xorKey = ac.xorKey ∧ ac'.swapKey = ac.swapKey) ac calls
  /-- Among the counted frames, the places of two with the same bytes differ by at least
      `2 ^ 32`. -/
  noReplay : ∀ i k c c', i < k → outs.reduceOption[i]? = some c →
    outs.reduceOption[k]? = some c' → c.SameBytes c' → 2 ^ 32 ≤ k - i

section Steps

variable {table : UInt8 → UInt32} {ac ac' : AboutCrypt} {c c' : DecodeCall}

/-- A length that is long enough is not negative. -/
theorem DecodeCall.LongEnough.msgLen_toNat (h : c.LongEnough) :
    4 ≤ c.msgLen.toUInt32.toNat ∧ c.msgLen.toUInt32.toNat < 2 ^ 31 := by
  have hfour := h.1
  have hint := toInt_toUInt32 c.msgLen
  have hbound := c.msgLen.toInt_lt
  omega

/-- The decoder is defined on a buffer that is long enough. -/
theorem decodeStep_eq_some (table : UInt8 → UInt32) (ac : AboutCrypt) (h : c.LongEnough) :
    ∃ r, decodeStep table ac c = some r := by
  obtain ⟨hfour, hlt⟩ := h.msgLen_toNat
  have hin := h.2
  have hsome : (transformBufferToMessage table ac c.message c.buffer c.buf c.msgLen).isSome := by
    rw [transformBufferToMessage_isSome_iff]
    intro i hi
    -- the sequence number is among the bytes that were received
    rcases (decoder_touches_iff (by omega) (by omega) i).1 hi with hi | ⟨-, hlo, hhi⟩ <;> omega
  obtain ⟨d, hd⟩ := Option.isSome_iff_exists.1 hsome
  rw [decodeStep, hd]
  exact ⟨_, rfl⟩

/-- A frame that passes both tests carries the sequence number expected next. -/
theorem sequenceField_of_authentic
    (h : frameAuthentic table ac c.buffer c.buf c.msgLen = true) :
    c.sequenceField ac.xorKey = some (ac.sequenceId ^^^ ac.sessionKey) := by
  unfold frameAuthentic at h
  unfold DecodeCall.sequenceField
  cases hb : xorDecrypt c.buffer (c.buf + 2) c.msgLen.toUInt32 ac.xorKey with
  | none =>
    rw [hb] at h
    cases h
  | some b =>
    rw [hb] at h
    simp only [Bool.and_eq_true] at h
    obtain ⟨-, h⟩ := h
    rw [Option.bind_some]
    cases hword : b.readWord 4 (c.buf + 2) with
    | none =>
      rw [hword] at h
      cases h
    | some word =>
      rw [hword] at h
      simp only [beq_iff_eq] at h
      -- the test compares with the session key xored in, which cancels
      rw [Option.map_some, ← h, UInt32.xor_assoc, UInt32.xor_self, UInt32.xor_zero]

/-- **One call.**  It counts its frame, which carried the sequence number expected next, or puts
    out nothing and changes nothing. -/
theorem decodeStep_spec {out : Option DecodeCall} (h : decodeStep table ac c = some (out, ac')) :
    (out = some c ∧ c.sequenceField ac.xorKey = some (ac.sequenceId ^^^ ac.sessionKey) ∧
      ac' = { ac with sequenceId := ac.sequenceId + 1 }) ∨ (out = none ∧ ac' = ac) := by
  rw [decodeStep, Option.map_eq_some_iff] at h
  obtain ⟨d, hd, h⟩ := h
  obtain ⟨-, -, hcrypt⟩ := transformBufferToMessage_spec hd
  rw [Prod.mk.injEq] at h
  obtain ⟨hout, hac⟩ := h
  rw [hcrypt] at hac
  by_cases hauth : frameAuthentic table ac c.buffer c.buf c.msgLen = true
  · rw [if_pos hauth] at hout hac
    exact Or.inl ⟨hout.symm, sequenceField_of_authentic hauth, hac.symm⟩
  · rw [if_neg hauth] at hout hac
    exact Or.inr ⟨hout.symm, hac.symm⟩

/-- The sequence field is among the bytes received. -/
theorem sequenceField_congr (key : ℕ → UInt8) (h : c.LongEnough) (h' : c'.LongEnough)
    (hsame : c.SameBytes c') : c.sequenceField key = c'.sequenceField key := by
  obtain ⟨hlen, hload⟩ := hsame
  obtain ⟨hfour, -⟩ := h.msgLen_toNat
  have hin := h.2
  have hin' := h'.2
  rw [← hlen] at hload hin'
  obtain ⟨b, hb, hsize⟩ := xorCrypt_eq_some key hin
  obtain ⟨b', hb', hsize'⟩ := xorCrypt_eq_some key hin'
  -- byte `i` is decrypted with the byte of the key that its offset selects
  have hword : load b.byte (c.buf + 2) 4 = load b'.byte (c'.buf + 2) 4 := by
    apply load_eq_load
    intro i hi
    have hbyte := congrArg (List.getD · (2 + i) 0) hload
    rw [load_getD _ _ (by omega), load_getD _ _ (by omega), ← Nat.add_assoc, ← Nat.add_assoc]
      at hbyte
    rw [xorCrypt_byte hb, xorCrypt_byte hb', if_pos (by omega), if_pos (by omega), hbyte,
        Nat.add_sub_cancel_left, Nat.add_sub_cancel_left]
  rw [DecodeCall.sequenceField, DecodeCall.sequenceField, ← hlen, xorDecrypt, xorDecrypt, hb, hb',
      Option.bind_some, Option.bind_some, Block.readWord_eq_some (by omega),
      Block.readWord_eq_some (by omega), hword]

end Steps

/-- No frame is counted at first. -/
theorem AboutCrypt.counted_zero (ac : AboutCrypt) : ac.counted 0 = ac := by
  rw [counted]
  exact congrArg (fun n => { ac with sequenceId := n }) (UInt32.add_zero _)

/-- Counting one more frame. -/
theorem AboutCrypt.counted_succ (ac : AboutCrypt) (n : ℕ) :
    { ac.counted n with sequenceId := (ac.counted n).sequenceId + 1 } = ac.counted (n + 1) := by
  have hsucc : ac.sequenceId + UInt32.ofNat n + 1 = ac.sequenceId + UInt32.ofNat (n + 1) := by
    rw [UInt32.ofNat_add, UInt32.add_assoc]
    rfl
  exact congrArg (fun n => { ac with sequenceId := n }) hsucc

section Runs

variable {table : UInt8 → UInt32} {ac ac' : AboutCrypt} {calls : List DecodeCall}
  {outs : List (Option DecodeCall)}

/-- Runs over frames that are long enough are defined. -/
theorem decode_run_eq_some (table : UInt8 → UInt32) (ac : AboutCrypt)
    (h : ∀ c ∈ calls, c.LongEnough) :
    ∃ outs ac', run (decodeStep table) ac calls = some (outs, ac') := by
  apply run_defined
  intro c hc ac
  obtain ⟨⟨out, ac'⟩, hstep⟩ := decodeStep_eq_some table ac (h c hc)
  exact ⟨out, ac', hstep⟩

/-- The counted frames carried the successive sequence numbers. -/
theorem decode_run_counts (hrun : run (decodeStep table) ac calls = some (outs, ac')) :
    ac' = ac.counted outs.reduceOption.length ∧
      outs.reduceOption.map (·.sequenceField ac.xorKey) =
        (List.range outs.reduceOption.length).map fun j =>
          some ((ac.sequenceId + UInt32.ofNat j) ^^^ ac.sessionKey) := by
  have hstep (j : ℕ) (c : DecodeCall) (out : Option DecodeCall) (ac₁ : AboutCrypt)
      (h : decodeStep table (ac.counted j) c = some (out, ac₁)) :
      (∃ x, out = some x ∧ x.sequenceField ac.xorKey =
          some ((ac.sequenceId + UInt32.ofNat j) ^^^ ac.sessionKey) ∧
        ac₁ = ac.counted (j + 1)) ∨ (out = none ∧ ac₁ = ac.counted j) := by
    rcases decodeStep_spec h with ⟨hout, hfield, hac⟩ | hnone
    · exact Or.inl ⟨c, hout, hfield, hac.trans (ac.counted_succ j)⟩
    · exact Or.inr hnone
  rw [← ac.counted_zero] at hrun
  have hcounts := run_counts hstep hrun
  rwa [Nat.zero_add, ← List.range_eq_range'] at hcounts

/-- A frame that is counted is that of one of the calls. -/
theorem counted_longEnough (hrun : run (decodeStep table) ac calls = some (outs, ac'))
    (h : ∀ c ∈ calls, c.LongEnough) : ∀ c ∈ outs.reduceOption, c.LongEnough := by
  have houts : ∀ out ∈ outs, ∀ c, out = some c → c.LongEnough := by
    refine forall_outputs_of_inputs ?_ h hrun
    intro ac₁ i out ac₂ hstep hi c hout
    rcases decodeStep_spec hstep with ⟨hsome, -, -⟩ | ⟨hnone, -⟩
    · rw [hout, Option.some.injEq] at hsome
      rwa [hsome]
    · rw [hout] at hnone
      cases hnone
  intro c hc
  exact houts (some c) (List.reduceOption_mem_iff.1 hc) c rfl

/-- **Sequence discipline.**  Over every run of calls on buffers that are long enough, the counted
    frames carried the successive sequence numbers, no other call changes anything, and among the
    counted frames the same bytes stand at places that differ by at least `2 ^ 32`. -/
theorem sequenceDiscipline (table : UInt8 → UInt32) (ac : AboutCrypt)
    (h : ∀ c ∈ calls, c.LongEnough) :
    ∃ outs ac', run (decodeStep table) ac calls = some (outs, ac') ∧
      KeepsSequence table ac calls outs ac' := by
  obtain ⟨outs, ac', hrun⟩ := decode_run_eq_some table ac h
  obtain ⟨hfinal, hcarried⟩ := decode_run_counts hrun
  refine ⟨outs, ac', hrun, hfinal, hcarried, ?_, ?_⟩
  · apply AllTransitions.of_forall
    intro ac₁ c out ac₂ hstep
    rcases decodeStep_spec hstep with ⟨rfl, -, rfl⟩ | ⟨rfl, rfl⟩
    · exact ⟨nofun, rfl, rfl, rfl⟩
    · exact ⟨fun _ => rfl, rfl, rfl, rfl⟩
  · intro i k c c' hik hc hc' hsame
    have hlong := counted_longEnough hrun h
    have hfield := sequenceField_congr ac.xorKey (hlong c (List.mem_of_getElem? hc))
      (hlong c' (List.mem_of_getElem? hc')) hsame
    -- the sequence numbers of both are those of their places
    have hplace (j : ℕ) (x : DecodeCall) (hx : outs.reduceOption[j]? = some x) :
        x.sequenceField ac.xorKey = some ((ac.sequenceId + UInt32.ofNat j) ^^^ ac.sessionKey) := by
      obtain ⟨hj, rfl⟩ := List.getElem?_eq_some_iff.1 hx
      have hmap := congrArg (·[j]?) hcarried
      simpa [hj] using hmap
    rw [hplace i c hc, hplace k c' hc', Option.some.injEq, UInt32.xor_left_inj,
        UInt32.add_right_inj] at hfield
    have hmod := congrArg UInt32.toNat hfield
    rw [UInt32.toNat_ofNat', UInt32.toNat_ofNat'] at hmod
    omega

end Runs

/-- The call of the decoder for the frame of an empty message. -/
def emptyFrameCall : DecodeCall := ⟨NetMessage.new, bytesBlock emptyFrame, 0, 12⟩

/-- A frame received twice. -/
theorem sequenceDiscipline_twice :
    ∃ outs ac', run (decodeStep initialCrc32Table) ⟨0, 0, fun _ => 1, fun _ => 0⟩
        [emptyFrameCall, emptyFrameCall] = some (outs, ac') ∧
      KeepsSequence initialCrc32Table ⟨0, 0, fun _ => 1, fun _ => 0⟩
        [emptyFrameCall, emptyFrameCall] outs ac' :=
  sequenceDiscipline _ _ (by decide)

/-- It is counted once. -/
example : (run (decodeStep initialCrc32Table) ⟨0, 0, fun _ => 1, fun _ => 0⟩
    [emptyFrameCall, emptyFrameCall]).map (fun r => (r.1.map Option.isSome, r.2.sequenceId)) =
      some ([true, false], 1) := by decide +kernel

end LeoNet
