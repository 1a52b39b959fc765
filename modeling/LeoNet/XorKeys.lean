import LeoNet.Handshake
import LeoNet.EncodedFrames
import LeoNet.ServiceIsolation

namespace LeoNet

open Memory Loop Machine EventLoop

/-!
# The table of XOR keys

`initial_xor_keys` fills the table before `main` enters its loop, and `send_key` gives every session a
row of it.  `rand_between(1, 255)` leaves out the zero, which is the one byte that the cipher does
not change anything with.

* `initialXorKeys_spec` — the loops stay inside the table, and what they leave in it;
* `keyed_step` / `keyed_run` — no session in use has a zero among the bytes of its key;
* `never_clear` — so no byte of a frame but those of its prefix ever stands in the clear.
-/

/-- `rand_between(a, b)`, where `rand` is what `rand()` returned. -/
def randBetween (a b rand : ℕ) : ℕ := a + rand % (b - a + 1)

/-- The inner loop of `initial_xor_keys`, `n` more bytes of row `i` from `j` on, with the number of
    calls of `rand` so far. -/
def xorKeyBytes (rand : ℕ → ℕ) (i : ℕ) : ℕ → ℕ → ℕ → Block UInt8 → Option (ℕ × Block UInt8)
  | 0, _, calls, xorKeys => some (calls, xorKeys)
  | n + 1, j, calls, xorKeys =>
    (xorKeys.set (i * (XOR_KEY_LEN + 1) + j) (UInt8.ofNat (randBetween 1 255 (rand calls)))).bind
      fun xorKeys => xorKeyBytes rand i n (j + 1) (calls + 1) xorKeys

/-- Its outer loop, `n` more rows from `i` on. -/
def xorKeyRows (rand : ℕ → ℕ) : ℕ → ℕ → ℕ → Block UInt8 → Option (Block UInt8)
  | 0, _, _, xorKeys => some xorKeys
  | n + 1, i, calls, xorKeys =>
    (xorKeyBytes rand i XOR_KEY_LEN 0 calls xorKeys).bind fun r =>
    (r.2.set (i * (XOR_KEY_LEN + 1) + 16) 0).bind fun xorKeys =>
      xorKeyRows rand n (i + 1) r.1 xorKeys

/-- `initial_xor_keys()`, on `xor_keys[MAX_XOR_NUM][XOR_KEY_LEN + 1]`; `rand k` is what the `k`-th call
    of `rand()` returns. -/
def initialXorKeys (rand : ℕ → ℕ) (xorKeys : Block UInt8) : Option (Block UInt8) :=
  xorKeyRows rand MAX_XOR_NUM 0 0 xorKeys

/-- The rows of the table. -/
def keyRow (xorKeys : Block UInt8) (i j : ℕ) : UInt8 := xorKeys.byte (i * (XOR_KEY_LEN + 1) + j)

/-! ### What the loops leave -/

section Table

variable (rand : ℕ → ℕ) (b : Block UInt8)

/-- What the inner loop leaves in memory. -/
theorem xorKeyBytes_spec {i n j : ℕ} (calls : ℕ)
    (h : i * (XOR_KEY_LEN + 1) + j + n ≤ b.size) :
    ∃ b', xorKeyBytes rand i n j calls b = some (calls + n, b') ∧ b'.size = b.size ∧
      ∀ a, b'.byte a =
        if i * (XOR_KEY_LEN + 1) + j ≤ a ∧ a < i * (XOR_KEY_LEN + 1) + j + n then
          UInt8.ofNat (randBetween 1 255 (rand (calls + (a - (i * (XOR_KEY_LEN + 1) + j)))))
        else b.byte a := by
  induction n generalizing j calls b with
  | zero => exact ⟨b, rfl, rfl, fun a => by rw [if_neg (by omega)]⟩
  | succ n ih =>
    set p := i * (XOR_KEY_LEN + 1) + j with hp
    set x := UInt8.ofNat (randBetween 1 255 (rand calls)) with hx
    obtain ⟨b', hb', hsize, hbyte⟩ := ih (j := j + 1) (b.put p x) (calls + 1)
      (by rw [Block.put_size]; omega)
    refine ⟨b', ?_, hsize, fun a => ?_⟩
    · rw [xorKeyBytes, ← hp, Block.set_eq_some (by omega), Option.bind_some, hb',
          Nat.add_assoc, Nat.add_comm 1 n]
    · rw [hbyte, ← Nat.add_assoc, ← hp]
      rcases Nat.lt_trichotomy a p with hlt | rfl | hgt
      · rw [if_neg (by omega), if_neg (by omega), Block.put_byte_of_ne _ _ hlt.ne]
      · rw [if_neg (by omega), if_pos (by omega), Block.put_byte_self, Nat.sub_self, Nat.add_zero]
      · by_cases ha : a < p + (n + 1)
        · rw [if_pos (by omega), if_pos (by omega),
              show calls + 1 + (a - (p + 1)) = calls + (a - p) by omega]
        · rw [if_neg (by omega), if_neg (by omega), Block.put_byte_of_ne _ _ hgt.ne']

/-- A row, with the bytes that sixteen calls of `rand` returned and the zero behind them. -/
def FilledRow (rand : ℕ → ℕ) (calls : ℕ) (row : ℕ → UInt8) : Prop :=
  (∀ j < XOR_KEY_LEN, row j = UInt8.ofNat (randBetween 1 255 (rand (calls + j)))) ∧
    row XOR_KEY_LEN = 0

/-- What the outer loop leaves in memory. -/
theorem xorKeyRows_spec {n i : ℕ} (calls : ℕ) (h : (i + n) * (XOR_KEY_LEN + 1) ≤ b.size) :
    ∃ b', xorKeyRows rand n i calls b = some b' ∧ b'.size = b.size ∧
      (∀ k < n, FilledRow rand (calls + XOR_KEY_LEN * k) (keyRow b' (i + k))) ∧
      ∀ a, a < i * (XOR_KEY_LEN + 1) ∨ (i + n) * (XOR_KEY_LEN + 1) ≤ a → b'.byte a = b.byte a := by
  have hlen : XOR_KEY_LEN = 16 := rfl
  induction n generalizing i calls b with
  | zero => exact ⟨b, rfl, rfl, fun k hk => absurd hk (Nat.not_lt_zero k), fun _ _ => rfl⟩
  | succ n ih =>
    rw [hlen] at h ih ⊢
    obtain ⟨b₁, hb₁, hsize₁, hbyte₁⟩ := xorKeyBytes_spec rand b (i := i) (j := 0) (n := 16) calls
      (by rw [hlen]; omega)
    simp only [hlen, Nat.add_zero] at hbyte₁
    obtain ⟨b', hb', hsize, hrows, houter⟩ := ih (i := i + 1)
      (b₁.put (i * (16 + 1) + 16) 0) (calls + 16) (by rw [Block.put_size]; omega)
    refine ⟨b', ?_, hsize.trans hsize₁, fun k hk => ?_, fun a ha => ?_⟩
    · rw [xorKeyRows, hlen, hb₁, Option.bind_some, Block.set_eq_some (by dsimp only; omega),
          Option.bind_some, hb']
    · cases k with
      | zero =>
        -- the rows behind this one leave it alone
        show FilledRow rand calls (keyRow b' i)
        refine ⟨fun j hj => ?_, ?_⟩
        · rw [hlen] at hj
          rw [keyRow, hlen, houter _ (by omega), Block.put_byte_of_ne _ _ (by omega), hbyte₁,
              if_pos (by omega), Nat.add_sub_cancel_left]
        · rw [keyRow, hlen, houter _ (by omega), Block.put_byte_self]
      | succ k =>
        have hrow := hrows k (by omega)
        rwa [show calls + 16 + 16 * k = calls + 16 * (k + 1) by omega,
            show i + 1 + k = i + (k + 1) by omega] at hrow
    · rw [houter a (by omega), Block.put_byte_of_ne _ _ (by omega), hbyte₁, if_neg (by omega)]

/-- **The table.**  The loops stay inside it, and leave in row `i` what the calls from the
    `16 * i`-th on returned. -/
theorem initialXorKeys_spec (h : MAX_XOR_NUM * (XOR_KEY_LEN + 1) ≤ b.size) :
    ∃ b', initialXorKeys rand b = some b' ∧ b'.size = b.size ∧
      (∀ i < MAX_XOR_NUM, FilledRow rand (XOR_KEY_LEN * i) (keyRow b' i)) ∧
      ∀ a, MAX_XOR_NUM * (XOR_KEY_LEN + 1) ≤ a → b'.byte a = b.byte a := by
  obtain ⟨b', hb', hsize, hrows, houter⟩ := xorKeyRows_spec rand b (n := MAX_XOR_NUM) (i := 0) 0
    (by rwa [Nat.zero_add])
  refine ⟨b', hb', hsize, fun i hi => ?_, fun a ha => houter a (Or.inr (by rwa [Nat.zero_add]))⟩
  have hrow := hrows i hi
  rwa [Nat.zero_add, Nat.zero_add] at hrow

end Table

/-! ### Keys without a zero -/

/-- No byte of the key is zero. -/
def NonzeroKey (key : ℕ → UInt8) : Prop := ∀ j < XOR_KEY_LEN, key j ≠ 0

/-- `rand_between(1, 255)` is no zero, also as a byte. -/
theorem randBetween_ne_zero (rand : ℕ) : UInt8.ofNat (randBetween 1 255 rand) ≠ 0 := by
  have hlt : rand % 255 < 255 := Nat.mod_lt _ (by decide)
  intro h
  have hnat := congrArg UInt8.toNat h
  rw [randBetween, UInt8.toNat_ofNat'] at hnat
  change (1 + rand % 255) % 256 = 0 at hnat
  omega

/-- A row that was filled holds no zero. -/
theorem FilledRow.nonzeroKey {rand : ℕ → ℕ} {calls : ℕ} {row : ℕ → UInt8}
    (h : FilledRow rand calls row) : NonzeroKey row := by
  intro j hj
  rw [h.1 j hj]
  exact randBetween_ne_zero _

/-- `send_key` takes over the row. -/
theorem sendKey_nonzeroKey (ac : AboutCrypt) (rand : UInt32) {row : ℕ → UInt8}
    (h : NonzeroKey row) : NonzeroKey (sendKey ac rand row).xorKey := by
  intro j hj
  have hcell := store_apply_of_lt ac.xorKey 0 (load row 0 XOR_KEY_LEN) (i := j)
    (by rwa [load_length])
  rw [Nat.zero_add] at hcell
  show Function.update (memcpy ac.xorKey 0 row 0 XOR_KEY_LEN) XOR_KEY_LEN 0 j ≠ 0
  rw [Function.update_of_ne hj.ne, memcpy, hcell]
  simpa [load] using h j hj

/-- Every byte of the range is changed. -/
theorem NonzeroKey.xorCrypt_ne {key : ℕ → UInt8} (h : NonzeroKey key) {b b' : Block UInt8}
    {buf : ℕ} {len : UInt32} (hcrypt : xorCrypt b buf len key = some b') {i : ℕ}
    (hi : i < len.toNat) : b'.byte (buf + i) ≠ b.byte (buf + i) := by
  have hstream : keystream key len.toNat i ≠ 0 := by
    unfold keystream
    split
    · exact h _ (Nat.mod_lt _ (by decide))
    · exact h _ (Nat.lt_trans (Nat.mod_lt _ (by decide)) (by decide))
  rw [xorCrypt_byte hcrypt, if_pos (by omega), Nat.add_sub_cancel_left]
  intro heq
  apply hstream
  rw [← UInt8.xor_right_inj (b.byte (buf + i)), heq, UInt8.xor_zero]

/-! ### The keys of the service -/

/-- The row that `on_accept` gives to its session is one of the table. -/
def ServiceAct.TakesKey (xorKeys : Block UInt8) : ServiceAct → Prop
  | .accept _ _ _ _ _ row => ∃ rand, row = randXorKey (keyRow xorKeys) rand
  | _ => True

/-- No session in use has a key with a zero. -/
def Keyed {lib : EventLibrary NetEvent} (s : NetService lib) : Prop :=
  ∀ session, session ∉ s.server.manager.vctSessions →
    NonzeroKey (s.sessionOf session).crypt.xorKey

/-- What `xor_decrypt` makes of the ring, for a frame. -/
def FrameEvent.decrypted (e : FrameEvent) : Option (Block UInt8) :=
  xorDecrypt e.storage (e.buf + 2) e.len.toUInt32 e.crypt.xorKey

/-- Nor had one that a frame was decrypted with. -/
def KeyedOut : ServiceOut → Prop
  | .read es => ∀ e ∈ es, NonzeroKey e.crypt.xorKey ∧ e.decrypted.isSome
  | _ => True

section Service

variable {lib : EventLibrary NetEvent} {table : UInt8 → UInt32} {s t : NetService lib}
  {st st' : ReadState} {xorKeys : Block UInt8}

/-- A frame that is decoded is decrypted first. -/
theorem decrypted_isSome {d : Decoded} (h : st.decode table = some d) :
    st.frameEvent.decrypted.isSome := by
  obtain ⟨p, hp, -⟩ := Option.bind_eq_some_iff.1 h
  rw [UInt32.toUInt32_toInt32] at hp
  exact Option.isSome_iff_exists.2 ⟨p, hp⟩

/-- The frame loop decrypts each frame with the key, and leaves this alone. -/
theorem loop_xorKey {n : ℕ} {es : List FrameEvent}
    (h : loop (onReadIter table) n st = some (es, st')) :
    st'.session.crypt.xorKey = st.session.crypt.xorKey ∧
      ∀ e ∈ es, e.crypt.xorKey = st.session.crypt.xorKey ∧ e.decrypted.isSome := by
  induction n generalizing st es with
  | zero => cases h
  | succ n ih =>
    rcases hb : onReadIter table st with _ | ⟨u⟩ | ⟨e, u⟩
    · rw [loop, hb] at h
      cases h
    · rw [loop_stop hb] at h
      cases h
      rw [(onReadIter_eq_stop hb).2]
      exact ⟨rfl, fun e he => absurd he List.not_mem_nil⟩
    · rw [loop_next hb, Option.map_eq_some_iff] at h
      obtain ⟨⟨es', t'⟩, hrest, heq⟩ := h
      cases heq
      obtain ⟨-, rfl, d, hd, rfl⟩ := onReadIter_eq_next hb
      have hkey : (st.afterFrame d).session.crypt.xorKey = st.session.crypt.xorKey := by
        show d.crypt.xorKey = _
        rw [(transformBufferToMessage_spec hd).2.2]
        split <;> rfl
      obtain ⟨hend, hframes⟩ := ih hrest
      rw [hkey] at hend hframes
      exact ⟨hend, List.forall_mem_cons.2 ⟨⟨rfl, decrypted_isSome hd⟩, hframes⟩⟩

/-- So does one call of `on_read`. -/
theorem onReadSession_xorKey {result : RecvResult} {es : List FrameEvent}
    (h : onReadSession table st result = some (es, st')) :
    st'.session.crypt.xorKey = st.session.crypt.xorKey ∧
      ∀ e ∈ es, e.crypt.xorKey = st.session.crypt.xorKey ∧ e.decrypted.isSome := by
  rcases result with (_ | ⟨b, bs⟩) | _
  · cases h
    exact ⟨rfl, fun e he => absurd he List.not_mem_nil⟩
  · have hloop := (onReadBytes_eq (onReadBytes_linear h)).symm.trans h
    have hkeys := loop_xorKey hloop
    exact hkeys
  · cases h
    exact ⟨rfl, fun e he => absurd he List.not_mem_nil⟩

/-- A call that leaves the key of its session alone leaves all of them. -/
theorem Keyed.setSession (h : Keyed s) {session : SessionPtr}
    (hkey : st.session.crypt.xorKey = (s.sessionOf session).crypt.xorKey) :
    Keyed (s.setSession session st) := by
  intro p hp
  by_cases hsame : p = session
  · rw [hsame, sessionOf_setSession_self, hkey, ← hsame]
    exact h p hp
  · rw [sessionOf_setSession_of_ne s st hsame]
    exact h p hp

/-- **One call** gives away only keys of the table. -/
theorem keyed_step (hkeys : ∀ i < MAX_XOR_NUM, NonzeroKey (keyRow xorKeys i)) {a : ServiceAct}
    {o : ServiceOut} (h : s.Inv ∧ Keyed s) (ha : s.FromSystem a ∧ a.TakesKey xorKeys)
    (hstep : s.step table a = some (o, t)) : KeyedOut o ∧ t.Inv ∧ Keyed t := by
  obtain ⟨hinv, hkeyed⟩ := h
  obtain ⟨hfrom, htakes⟩ := ha
  have hinv' := NetService.inv_step hinv hfrom hstep
  cases a with
  | accept fd memRead memWrite added rand row =>
    rcases NetService.step_accept hinv hfrom hstep with
      ⟨-, rfl, rfl⟩ | ⟨-, -, -, c, g, evRead, evWrite, base, hon, -, rfl, rfl⟩
    · exact ⟨trivial, hinv', hkeyed⟩
    · refine ⟨trivial, hinv', fun session hused => ?_⟩
      have hused' : session ∉ g.manager.vctSessions := hused
      show NonzeroKey (g.manager.mallocSession session).crypt.xorKey
      rcases NetService.onAccept_cases hon with ⟨-, rfl⟩ | ⟨first, rest, hvct, hrest, -, -, hmalloc⟩
      · exact hkeyed session hused
      · rw [hmalloc]
        by_cases hfirst : session = first
        · -- the session that is claimed gets its key now
          obtain ⟨r, rfl⟩ := htakes
          rw [if_pos hfirst]
          exact sendKey_nonzeroKey _ rand (hkeys _ (Nat.mod_lt _ (by decide)))
        · rw [if_neg hfirst]
          rw [hrest] at hused'
          refine hkeyed session ?_
          rw [hvct, List.mem_cons, not_or]
          exact ⟨hfirst, hused'⟩
  | readable fd result =>
    rcases NetService.step_readable hinv hfrom hstep with
      ⟨-, rfl, rfl⟩ | ⟨session, es, st, hmap, hread, rfl, rfl⟩
    · exact ⟨fun e he => absurd he List.not_mem_nil, hinv', hkeyed⟩
    · obtain ⟨hkey, hframes⟩ := onReadSession_xorKey hread
      refine ⟨fun e he => ?_, hinv', hkeyed.setSession hkey⟩
      obtain ⟨hsame, hdecrypted⟩ := hframes e he
      rw [hsame]
      exact ⟨hkeyed session (hinv.mapped_iff.1 hmap).1, hdecrypted⟩
  | writable fd message result deleted =>
    rcases NetService.step_writable hinv hfrom hstep with
      ⟨-, rfl, rfl⟩ | ⟨session, q, -, -, rfl, rfl⟩
    · exact ⟨trivial, hinv', hkeyed⟩
    · exact ⟨trivial, hinv', hkeyed.setSession rfl⟩
  | push session nm added =>
    obtain ⟨rfl, base, -, rfl, -⟩ := NetService.step_push hinv hstep
    have hbase : Keyed { s with base } := hkeyed
    exact ⟨trivial, hinv', hbase.setSession rfl⟩
  | fetch session nm =>
    obtain ⟨rfl, rfl⟩ := NetService.step_fetch hstep
    exact ⟨trivial, hinv', hkeyed.setSession rfl⟩

/-- At the start no session is in use. -/
theorem keyed_start {mem : SessionPtr → RawSession} {heap : Heap} (h : s.Starts mem heap) :
    Keyed s := by
  obtain ⟨hserver, -⟩ := NetService.starts_spec h
  intro session hused
  rw [hserver] at hused
  exact absurd (List.mem_finRange session) hused

/-- **The service keeps its keys.**  In every run whose accepts take their rows from the table, every
    frame was decrypted with a key without a zero, and every session in use has such a key. -/
theorem keyed_run (hkeys : ∀ i < MAX_XOR_NUM, NonzeroKey (keyRow xorKeys i))
    {mem : SessionPtr → RawSession} {heap : Heap} {acts : List ServiceAct} {os : List ServiceOut}
    (hstart : s.Starts mem heap)
    (hfrom : AllSteps (NetService.step table) (fun s a => s.FromSystem a ∧ a.TakesKey xorKeys)
      s acts)
    (hrun : run (NetService.step table) s acts = some (os, t)) :
    (∀ o ∈ os, KeyedOut o) ∧ t.Inv ∧ Keyed t := by
  have hkeyed : s.Inv ∧ Keyed s := ⟨NetService.inv_start hstart, keyed_start hstart⟩
  exact ⟨forall_outputs_of_inv (I := fun s : NetService lib => s.Inv ∧ Keyed s)
      (fun _ _ _ _ hs ha hstep => keyed_step hkeys hs ha hstep) hkeyed hfrom hrun,
    run_inv (I := fun s : NetService lib => s.Inv ∧ Keyed s)
      (fun _ _ _ _ hs ha hstep => (keyed_step hkeys hs ha hstep).2) hkeyed hfrom hrun⟩

end Service

/-- Behind its prefix, the encoder leaves no byte of an accepted message as it is. -/
def Hides (ac : AboutCrypt) : Prop :=
  ∀ (nm : NetMessage) (b : Block UInt8) (buf : ℕ) (bufLen : Int32),
    nm.realSize.toNat ≤ BUFFER_SIZE → 6 + nm.realSize.toNat ≤ bufLen.toUInt32.toNat →
    buf + (6 + nm.realSize.toNat) ≤ b.size →
    ∃ r, transformMessageToBuffer ac nm b buf bufLen = some r ∧
      ∀ (i : ℕ) (hi : i < nm.body.length), r.2.byte (buf + 2 + i) ≠ nm.body[i]

/-- Behind its prefix, the decoder leaves no byte of a frame as it is. -/
def FrameEvent.Hidden (e : FrameEvent) : Prop :=
  ∃ p, e.decrypted = some p ∧
    ∀ i < e.len.toNat, p.byte (e.buf + 2 + i) ≠ e.storage.byte (e.buf + 2 + i)

/-- A key without a zero hides what the encoder writes. -/
theorem NonzeroKey.hides {ac : AboutCrypt} (h : NonzeroKey ac.xorKey) : Hides ac := by
  intro nm b buf bufLen hdata hlen hin
  obtain ⟨b', hb', hencode⟩ := transformMessageToBuffer_eq_some ac hdata hlen hin
  refine ⟨_, hencode, fun i hi => ?_⟩
  have hlt := nm.realSize.toNat_lt
  have hbody : i < (UInt32.ofNat (4 + nm.realSize.toNat)).toNat := by
    rw [nm.body_length] at hi
    rw [UInt32.toNat_ofNat']
    omega
  have hne := h.xorCrypt_ne hb' hbody
  have hplain : (written nm b buf).byte (buf + 2 + i) = nm.body[i] := store_apply_of_lt _ _ _ hi
  rwa [hplain] at hne

/-- It has hidden what the decoder decrypts. -/
theorem NonzeroKey.hidden {e : FrameEvent} (h : NonzeroKey e.crypt.xorKey)
    (hdecrypted : e.decrypted.isSome) : e.Hidden := by
  obtain ⟨p, hp⟩ := Option.isSome_iff_exists.1 hdecrypted
  refine ⟨p, hp, fun i hi => ?_⟩
  exact h.xorCrypt_ne hp (by rwa [UInt16.toNat_toUInt32])

/-- **Nothing stands in the clear.**  When `initial_xor_keys` has filled the table, then in every run of
    the service every byte behind the prefix of a frame was encrypted to another one, and so would be
    every byte of any message encoded with the keys of a connection. -/
theorem never_clear {lib : EventLibrary NetEvent} (table : UInt8 → UInt32) (rand : ℕ → ℕ)
    (memory xorKeys : Block UInt8) (hsize : memory.size = MAX_XOR_NUM * (XOR_KEY_LEN + 1))
    (hkeys : initialXorKeys rand memory = some xorKeys) (mem : SessionPtr → RawSession)
    (heap : Heap) (s t : NetService lib) (acts : List ServiceAct) (os : List ServiceOut)
    (hstart : s.Starts mem heap)
    (hfrom : AllSteps (NetService.step table) NetService.FromSystem s acts)
    (htakes : ∀ a ∈ acts, a.TakesKey xorKeys)
    (hrun : run (NetService.step table) s acts = some (os, t)) :
    (∀ e ∈ framesOf os, e.Hidden) ∧
      ∀ fd session, t.server.manager.mapSessions fd = some session →
        Hides (t.sessionOf session).crypt := by
  obtain ⟨filled, hfilled, -, hrows, -⟩ := initialXorKeys_spec rand memory hsize.ge
  cases hkeys.symm.trans hfilled
  obtain ⟨hout, hinv, hkeyed⟩ := keyed_run (fun i hi => (hrows i hi).nonzeroKey) hstart
    (hfrom.and_forall htakes) hrun
  refine ⟨fun e he => ?_, fun fd session hmap => ?_⟩
  · obtain ⟨o, ho, hin⟩ := List.mem_flatMap.1 he
    have hkey := hout o ho
    cases o with
    | read es => exact (hkey e hin).1.hidden (hkey e hin).2
    | accepted session => cases hin
    | wrote outcome => cases hin
    | pushed stored => cases hin
    | fetched removed => cases hin
  · exact (hkeyed session (hinv.mapped_iff.1 hmap).1).hides

/-- A table filled with ones. -/
def onesTable : Block UInt8 :=
  ⟨MAX_XOR_NUM * (XOR_KEY_LEN + 1), fun a => if a < 4352 ∧ a % 17 = 16 then 0 else 1⟩

/-- The table that `initial_xor_keys` makes of ones, when `rand` returns zeroes. -/
theorem initialXorKeys_ones : initialXorKeys (fun _ => 0) onesTable = some onesTable := by
  obtain ⟨⟨size, byte⟩, hb, hsize, hrows, houter⟩ :=
    initialXorKeys_spec (fun _ => 0) onesTable (le_refl _)
  have hmax : MAX_XOR_NUM = 256 := rfl
  have hlen : XOR_KEY_LEN = 16 := rfl
  rw [hmax] at hrows houter
  simp only [hlen] at hrows houter
  have hbyte : byte = onesTable.byte := by
    funext a
    rcases Nat.lt_or_ge a 4352 with hlt | hge
    · obtain ⟨hkey, hzero⟩ := hrows (a / 17) (by omega)
      have hsplit : a / 17 * 17 + a % 17 = a := Nat.div_add_mod' a 17
      show byte a = if a < 4352 ∧ a % 17 = 16 then 0 else 1
      by_cases hend : a % 17 = 16
      · rw [if_pos ⟨hlt, hend⟩, ← hsplit, hend]
        exact hzero
      · have hrow := hkey (a % 17) (by rw [hlen]; omega)
        rw [if_neg fun h => hend h.2, ← hsplit]
        exact hrow
    · exact houter a hge
  cases hsize
  rw [hb, hbyte]
  rfl

/-- A connection that receives a frame of five bytes. -/
def keyedConnection : List ServiceAct :=
  [.accept 5 true true true 1 (randXorKey (keyRow onesTable) 3),
    .readable 5 (.bytes [4, 0, 1, 1, 1])]

/-- The frame was encrypted with a key of ones. -/
theorem never_clear_one : ∃ os t, run (NetService.step initialCrc32Table)
    (NetService.listService []) keyedConnection = some (os, t) ∧
      (∀ e ∈ framesOf os, e.Hidden) ∧
      ∀ fd session, t.server.manager.mapSessions fd = some session →
        Hides (t.sessionOf session).crypt := by
  obtain ⟨hfrom, hsome⟩ : AllSteps (NetService.step initialCrc32Table) NetService.FromSystem
      (NetService.listService []) keyedConnection ∧
      (run (NetService.step initialCrc32Table) (NetService.listService [])
        keyedConnection).isSome := by
    decide +kernel
  obtain ⟨⟨os, t⟩, hrun⟩ := Option.isSome_iff_exists.mp hsome
  have htakes : ∀ a ∈ keyedConnection, a.TakesKey onesTable := by
    intro a ha
    rcases List.mem_cons.1 ha with rfl | ha
    · exact ⟨3, rfl⟩
    · obtain rfl := List.mem_singleton.1 ha
      trivial
  exact ⟨os, t, hrun, never_clear _ _ _ _ rfl initialXorKeys_ones _ _ _ _ _ _
    (NetService.listService_starts _) hfrom htakes hrun⟩

end LeoNet
