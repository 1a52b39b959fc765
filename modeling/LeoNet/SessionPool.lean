import LeoNet.Callbacks
import LeoNet.Lib.Machine

namespace LeoNet

open Memory Loop Machine

/-!
# The session pool — runs of the callbacks, and of the manager's own calls

The manager keeps the sessions of one array on a free list or, while they are in use, in a map
from sockets.  Three promises about it fail, and each holds exactly as far as said here.

* `onAccept_spec` / `onRead_binding` / `onWrite_binding` — what a callback does to free list, map
  and sockets; only `on_accept` touches them;
* `balanced_iff_keepsOpen` — free sessions and open connections add up to `MAX_SESSION` exactly as
  long as no peer closes its connection and no `recv` fails;
* `acceptBinds_iff_fresh` — every session in use is found under its own socket exactly as long
  as no descriptor is accepted that is still in the map;
* `claimed_drained` — a claimed session is empty when the array's memory held empty queues and
  every session was drained before it was reclaimed.
-/

variable {table : UInt8 → UInt32}

/-! ### What the callbacks do to the manager -/

/-- Free list, map and sockets are as they were. -/
structure SessionManager.SameBinding (m m' : SessionManager) : Prop where
  vct : m'.vctSessions = m.vctSessions
  map : m'.mapSessions = m.mapSessions
  socket : ∀ s, (m'.mallocSession s).socket = (m.mallocSession s).socket

section Binding

variable {g g' : GameServer} {fd : ℤ}

/-- A manager binds what it binds. -/
theorem sameBinding_refl (m : SessionManager) : m.SameBinding m := ⟨rfl, rfl, fun _ => rfl⟩

/-- A change to one session that leaves its socket alone. -/
theorem sameBinding_modify (m : SessionManager) (s : SessionPtr) {f : NetSession → NetSession}
    (hf : (f (m.mallocSession s)).socket = (m.mallocSession s).socket) :
    m.SameBinding (m.modifySession s f) := by
  refine ⟨rfl, rfl, fun p => ?_⟩
  by_cases hp : p = s
  · rw [hp, SessionManager.modifySession_self]
    exact hf
  · rw [SessionManager.modifySession_of_ne hp]

/-- The frame loop leaves the socket alone. -/
theorem onReadBytes_socket {st t : ReadState} {bytes : List UInt8} {es : List FrameEvent}
    (h : onReadBytes table st bytes = some (es, t)) : t.session.socket = st.session.socket := by
  rw [onReadBytes, Option.bind_eq_some_iff] at h
  obtain ⟨rb, -, h⟩ := h
  refine loop_inv (I := fun u => u.session.socket = st.session.socket) ?_ ?_ rfl h
  · intro u v hu hstop
    obtain ⟨-, rfl⟩ := onReadIter_eq_stop hstop
    exact hu
  · intro u e v hu hnext
    obtain ⟨-, -, d, -, rfl⟩ := onReadIter_eq_next hnext
    exact hu

/-- So does the drain loop. -/
theorem onWriteIter_socket {heap : Heap} {message : MessagePtr} {s : NetSession}
    {p : Pass DrainEvent NetSession} (h : onWriteIter heap message s = some p) :
    match p with
    | .stop t => t.socket = s.socket
    | .next _ t => t.socket = s.socket := by
  simp only [onWriteIter] at h
  split at h
  · cases h
    rfl
  · rw [Option.bind_eq_some_iff] at h
    obtain ⟨nm, -, h⟩ := h
    rw [Option.map_eq_some_iff] at h
    obtain ⟨e, -, rfl⟩ := h
    rfl

/-- `on_write` leaves the socket of its session alone. -/
theorem onWriteSession_socket {heap : Heap} {message : MessagePtr} {result : SendResult}
    {s t : NetSession} {o : WriteOutcome}
    (h : onWriteSession heap message result s = some (o, t)) : t.socket = s.socket := by
  rw [onWriteSession, Option.bind_eq_some_iff] at h
  obtain ⟨⟨es, u⟩, hdrain, h⟩ := h
  rw [Option.map_eq_some_iff] at h
  obtain ⟨sent, -, heq⟩ := h
  cases heq
  refine loop_inv (I := fun v => v.socket = s.socket) ?_ ?_ rfl hdrain
  · intro v w hv hstop
    exact (onWriteIter_socket hstop).trans hv
  · intro v e w hv hnext
    exact (onWriteIter_socket hnext).trans hv

/-- `on_read` does not touch the pool, whatever `recv` returned. -/
theorem onRead_binding {result : RecvResult} {es : List FrameEvent}
    (h : g.onRead table fd result = some (es, g')) : g.manager.SameBinding g'.manager := by
  rw [GameServer.onRead, Option.bind_eq_some_iff] at h
  obtain ⟨found, -, h⟩ := h
  split at h
  case h_1 session b bs =>
    rw [Option.map_eq_some_iff] at h
    obtain ⟨⟨es', t⟩, hread, heq⟩ := h
    cases heq
    have hsocket := onReadBytes_socket hread
    exact sameBinding_modify _ _ (f := fun _ => t.session) hsocket
  case h_2 =>
    cases h
    exact sameBinding_refl _

/-- `on_write` does not touch it either. -/
theorem onWrite_binding {message : MessagePtr} {result : SendResult} {o : Option WriteOutcome}
    (h : g.onWrite fd message result = some (o, g')) : g.manager.SameBinding g'.manager := by
  rw [GameServer.onWrite, Option.bind_eq_some_iff] at h
  obtain ⟨found, -, h⟩ := h
  cases found with
  | none =>
    cases h
    exact sameBinding_refl _
  | some session =>
    rw [Option.map_eq_some_iff] at h
    obtain ⟨⟨o', t⟩, hwrite, heq⟩ := h
    cases heq
    have hsocket := onWriteSession_socket hwrite
    exact sameBinding_modify _ _ (f := fun _ => t) hsocket

/-- Without a free session `on_accept` does nothing. -/
theorem onAccept_full {rand : UInt32} {row : ℕ → UInt8} (h : g.manager.vctSessions = []) :
    g.onAccept fd rand row = some (none, g) := by
  unfold GameServer.onAccept SessionManager.claimOneSession
  rw [h]

/-- With one, it takes the first, gives it the socket, and enters it in the map unless the
    descriptor is in there already. -/
theorem onAccept_spec {rand : UInt32} {row : ℕ → UInt8} {session : SessionPtr}
    {rest : List SessionPtr} (h : g.manager.vctSessions = session :: rest)
    {o : Option SessionPtr} (ho : g.onAccept fd rand row = some (o, g')) :
    o = some session ∧ 0 < fd ∧ g'.manager.vctSessions = rest ∧
      g'.manager.mapSessions = (if g.manager.mapSessions fd = none
        then Function.update g.manager.mapSessions fd (some session)
        else g.manager.mapSessions) ∧
      ∀ s, (g'.manager.mallocSession s).socket =
        if s = session then fd else (g.manager.mallocSession s).socket := by
  unfold GameServer.onAccept SessionManager.claimOneSession at ho
  rw [h, Option.map_eq_some_iff] at ho
  obtain ⟨⟨flag, m⟩, hinsert, heq⟩ := ho
  cases heq
  obtain ⟨hpos, hvct, hmalloc, hmap⟩ := SessionManager.insertSession_spec hinsert
  refine ⟨rfl, hpos, hvct, hmap, fun s => ?_⟩
  dsimp only
  by_cases hs : s = session
  · rw [if_pos hs, hs, SessionManager.modifySession_self, hmalloc,
        SessionManager.modifySession_self]
    rfl
  · rw [if_neg hs, SessionManager.modifySession_of_ne hs, hmalloc,
        SessionManager.modifySession_of_ne hs]

end Binding

/-! ### Runs of the callbacks -/

/-- An event of the network, with what the system calls of its callback return. -/
inductive ServerEvent where
  | accept (fd : ℤ) (rand : UInt32) (row : ℕ → UInt8)
  | readable (fd : ℤ) (result : RecvResult)
  | writable (fd : ℤ) (message : MessagePtr) (result : SendResult)

/-- The callback of an event; it puts out the session that `on_accept` claimed. -/
def GameServer.step (table : UInt8 → UInt32) (g : GameServer) :
    ServerEvent → Option (Option SessionPtr × GameServer)
  | .accept fd rand row => g.onAccept fd rand row
  | .readable fd result => (g.onRead table fd result).map fun r => (none, r.2)
  | .writable fd message result => (g.onWrite fd message result).map fun r => (none, r.2)

/-- The program at the start of its event loop. -/
def GameServer.start (mem : SessionPtr → RawSession) (heap : Heap) : GameServer :=
  ⟨SessionManager.initSessions mem, heap⟩

/-- Only `on_accept` touches the pool. -/
theorem step_binding {g g' : GameServer} {e : ServerEvent} {o : Option SessionPtr}
    (he : ∀ fd rand row, e ≠ .accept fd rand row) (h : g.step table e = some (o, g')) :
    o = none ∧ g.manager.SameBinding g'.manager := by
  cases e with
  | accept fd rand row => exact absurd rfl (he fd rand row)
  | readable fd result =>
    rw [GameServer.step, Option.map_eq_some_iff] at h
    obtain ⟨⟨es, u⟩, hread, heq⟩ := h
    cases heq
    exact ⟨rfl, onRead_binding hread⟩
  | writable fd message result =>
    rw [GameServer.step, Option.map_eq_some_iff] at h
    obtain ⟨⟨w, u⟩, hwrite, heq⟩ := h
    cases heq
    exact ⟨rfl, onWrite_binding hwrite⟩

/-! ### Free sessions and open connections -/

/-- `recv` reports that the connection is over: the peer has closed it, or an error. -/
def RecvResult.over : RecvResult → Bool
  | .bytes [] => true
  | .bytes _ => false
  | .error => true

/-- The program, and the descriptors of the connections that are open. -/
structure Traffic where
  server : GameServer
  opened : List ℤ

namespace Traffic

/-- At the start of the event loop no connection is open. -/
def start (mem : SessionPtr → RawSession) (heap : Heap) : Traffic := ⟨.start mem heap, []⟩

/-- The connections open after an event. -/
def openAfter (s : Traffic) : ServerEvent → List ℤ
  | .accept fd _ _ => fd :: s.opened
  | .readable fd result => if result.over then s.opened.erase fd else s.opened
  | .writable _ _ _ => s.opened

/-- One event. -/
def step (table : UInt8 → UInt32) (s : Traffic) (e : ServerEvent) :
    Option (Option SessionPtr × Traffic) :=
  (s.server.step table e).map fun r => (r.1, ⟨r.2, s.openAfter e⟩)

/-- The system hands out descriptors that are not in use, and at most `MAX_SESSION` connections
    are open at once. -/
def Allowed (s : Traffic) : ServerEvent → Prop
  | .accept fd _ _ => fd ∉ s.opened ∧ s.opened.length < MAX_SESSION
  | .readable _ _ => True
  | .writable _ _ _ => True

/-- Every session is free or belongs to an open connection. -/
def Conserved (s : Traffic) : Prop :=
  s.server.manager.vctSessions.length + s.opened.length = MAX_SESSION

/-- An `on_accept` has got a session. -/
def Claims : ServerEvent → Option SessionPtr → Prop
  | .accept _ _ _, o => o.isSome = true
  | .readable _ _, _ => True
  | .writable _ _ _, _ => True

/-- The promise of the pool: after every event the sessions are balanced, and every `on_accept`
    has got one. -/
def Balanced (_ : Traffic) (e : ServerEvent) (o : Option SessionPtr) (t : Traffic) : Prop :=
  t.Conserved ∧ Claims e o

/-- No open connection ends. -/
def KeepsOpen (s : Traffic) : ServerEvent → Prop
  | .readable fd result => result.over = true → fd ∉ s.opened
  | .accept _ _ _ => True
  | .writable _ _ _ => True

instance (s : Traffic) (e : ServerEvent) : Decidable (s.Allowed e) :=
  match e with
  | .accept _ _ _ => inferInstanceAs (Decidable (_ ∧ _))
  | .readable _ _ => inferInstanceAs (Decidable True)
  | .writable _ _ _ => inferInstanceAs (Decidable True)

instance (e : ServerEvent) (o : Option SessionPtr) : Decidable (Claims e o) :=
  match e with
  | .accept _ _ _ => inferInstanceAs (Decidable (_ = _))
  | .readable _ _ => inferInstanceAs (Decidable True)
  | .writable _ _ _ => inferInstanceAs (Decidable True)

section Balance

variable {s t : Traffic} {e : ServerEvent} {o : Option SessionPtr}

/-- One event keeps the balance exactly when it does not end an open connection. -/
theorem balanced_step (hs : s.Conserved) (ha : s.Allowed e) (h : s.step table e = some (o, t)) :
    (Balanced s e o t ↔ s.KeepsOpen e) ∧ (s.KeepsOpen e → t.Conserved) := by
  rw [step, Option.map_eq_some_iff] at h
  obtain ⟨⟨o', g'⟩, hstep, heq⟩ := h
  cases heq
  unfold Conserved at hs
  cases e with
  | accept fd rand row =>
    -- fewer than `MAX_SESSION` connections are open, so a session is free
    have hfull := ha.2
    obtain ⟨session, rest, hvct⟩ : ∃ session rest,
        s.server.manager.vctSessions = session :: rest := by
      apply List.exists_cons_of_ne_nil
      intro hnil
      rw [hnil, List.length_nil] at hs
      omega
    obtain ⟨ho, -, hrest, -⟩ := onAccept_spec hvct hstep
    have hcons : Conserved ⟨g', s.openAfter (.accept fd rand row)⟩ := by
      show g'.manager.vctSessions.length + (fd :: s.opened).length = MAX_SESSION
      rw [hvct, List.length_cons] at hs
      rw [hrest, List.length_cons]
      omega
    have hbal : Balanced s (.accept fd rand row) o' ⟨g', s.openAfter (.accept fd rand row)⟩ :=
      ⟨hcons, by rw [ho]; rfl⟩
    exact ⟨iff_of_true hbal trivial, fun _ => hcons⟩
  | readable fd result =>
    have hvct := (step_binding (by intro _ _ _; exact ServerEvent.noConfusion) hstep).2.vct
    have hiff : Conserved ⟨g', s.openAfter (.readable fd result)⟩ ↔
        s.KeepsOpen (.readable fd result) := by
      show g'.manager.vctSessions.length +
        (if result.over then s.opened.erase fd else s.opened).length = MAX_SESSION ↔
          (result.over = true → fd ∉ s.opened)
      rw [hvct]
      by_cases hover : result.over = true
      · rw [if_pos hover]
        by_cases hmem : fd ∈ s.opened
        · -- the connection is gone, and its session is not back on the free list
          have hpos := List.length_pos_of_mem hmem
          rw [List.length_erase_of_mem hmem]
          exact iff_of_false (by omega) fun h => h hover hmem
        · rw [List.erase_of_not_mem hmem]
          exact iff_of_true hs fun _ => hmem
      · rw [if_neg hover]
        exact iff_of_true hs fun h => absurd h hover
    exact ⟨(and_iff_left trivial).trans hiff, hiff.mpr⟩
  | writable fd message result =>
    have hvct := (step_binding (by intro _ _ _; exact ServerEvent.noConfusion) hstep).2.vct
    have hcons : Conserved ⟨g', s.openAfter (.writable fd message result)⟩ := by
      show g'.manager.vctSessions.length + s.opened.length = MAX_SESSION
      rw [hvct]
      exact hs
    exact ⟨iff_of_true ⟨hcons, trivial⟩ trivial, fun _ => hcons⟩

/-- All sessions are free at the start. -/
theorem start_conserved (mem : SessionPtr → RawSession) (heap : Heap) :
    (start mem heap).Conserved := by
  show (List.finRange MAX_SESSION).length + 0 = MAX_SESSION
  rw [List.length_finRange, Nat.add_zero]

end Balance

end Traffic

/-- **The pool leaks every connection that ends.**  In every run with at most `MAX_SESSION` open
    connections, the sessions stay balanced, and every `on_accept` gets one, exactly when no
    `recv` on an open connection returns `0` or an error. -/
theorem balanced_iff_keepsOpen (table : UInt8 → UInt32) (mem : SessionPtr → RawSession)
    (heap : Heap) (events : List ServerEvent) (os : List (Option SessionPtr)) (t : Traffic)
    (hallowed : AllSteps (Traffic.step table) Traffic.Allowed (.start mem heap) events)
    (hrun : run (Traffic.step table) (.start mem heap) events = some (os, t)) :
    AllTransitions (Traffic.step table) Traffic.Balanced (.start mem heap) events ↔
      AllSteps (Traffic.step table) Traffic.KeepsOpen (.start mem heap) events :=
  allTransitions_iff_allSteps (fun _ _ _ _ => Traffic.balanced_step)
    (Traffic.start_conserved mem heap) hallowed hrun

/-- Two connections, one of which sends four bytes. -/
def twoConnections : List ServerEvent :=
  [.accept 5 0 fun _ => 1, .accept 6 0 fun _ => 1, .readable 5 (.bytes [4, 0, 1, 1])]

/-- Two connections, of which none is closed. -/
theorem balanced_iff_keepsOpen_two :
    ∃ os t, run (Traffic.step initialCrc32Table) (.start (fun _ => .zeroed) []) twoConnections =
        some (os, t) ∧
      (AllTransitions (Traffic.step initialCrc32Table) Traffic.Balanced
          (.start (fun _ => .zeroed) []) twoConnections ↔
        AllSteps (Traffic.step initialCrc32Table) Traffic.KeepsOpen
          (.start (fun _ => .zeroed) []) twoConnections) := by
  obtain ⟨⟨os, t⟩, hrun⟩ : ∃ r, run (Traffic.step initialCrc32Table) (.start (fun _ => .zeroed) [])
      twoConnections = some r := Option.isSome_iff_exists.mp (by decide +kernel)
  exact ⟨os, t, hrun, balanced_iff_keepsOpen _ _ _ _ _ _ (by decide +kernel) hrun⟩

/-- The promise of the pool: with at most `MAX_SESSION` open connections, the sessions stay
    balanced and every `on_accept` gets one. -/
def PoolBalanced (table : UInt8 → UInt32) : Prop :=
  ∀ (mem : SessionPtr → RawSession) (heap : Heap) (events : List ServerEvent),
    AllSteps (Traffic.step table) Traffic.Allowed (.start mem heap) events →
    AllTransitions (Traffic.step table) Traffic.Balanced (.start mem heap) events

/-- Ten connections that their peers close one after the other, then one more: there is no
    session left for it. -/
def elevenConnections : List ServerEvent :=
  (List.range 10).flatMap (fun i =>
    [.accept (i + 1) 0 fun _ => 1, .readable (i + 1) (.bytes [])]) ++ [.accept 11 0 fun _ => 1]

/-- The session of a peer that closes its connection is not freed. -/
theorem poolBalanced_fails : ¬ PoolBalanced initialCrc32Table := by
  intro h
  have hall := h (fun _ => .zeroed) [] elevenConnections (by decide +kernel)
  -- the last `on_accept` comes away with nothing
  have hclaims := hall.mono (Q := fun _ e o _ => Traffic.Claims e o) fun _ _ _ _ h => h.2
  exact absurd hclaims (by decide +kernel)

/-! ### Sockets and sessions -/

/-- Every session in use is in the map under its own socket, and under no other. -/
def SessionManager.Bound (m : SessionManager) : Prop :=
  ∀ s, s ∉ m.vctSessions → ∀ fd, m.mapSessions fd = some s ↔ (m.mallocSession s).socket = fd

/-- `get_one_session` finds the session that an `on_accept` has claimed. -/
def FindsClaimed (m : SessionManager) : ServerEvent → Option SessionPtr → Prop
  | .accept fd _ _, some session => m.getOneSession fd = some (some session)
  | .accept _ _ _, none => True
  | .readable _ _, _ => True
  | .writable _ _ _, _ => True

/-- The promise of `on_accept`: it binds the descriptor to the session it has claimed and keyed,
    and leaves every session in use bound to its socket. -/
def AcceptBinds (_ : GameServer) (e : ServerEvent) (o : Option SessionPtr) (g' : GameServer) :
    Prop :=
  FindsClaimed g'.manager e o ∧ g'.manager.Bound

/-- The descriptor an `on_accept` claims a session for is not in the map. -/
def FreshSocket (g : GameServer) : ServerEvent → Prop
  | .accept fd _ _ => g.manager.vctSessions ≠ [] → g.manager.mapSessions fd = none
  | .readable _ _ => True
  | .writable _ _ _ => True

instance (m : SessionManager) (e : ServerEvent) (o : Option SessionPtr) :
    Decidable (FindsClaimed m e o) :=
  match e, o with
  | .accept _ _ _, some _ => inferInstanceAs (Decidable (_ = _))
  | .accept _ _ _, none => inferInstanceAs (Decidable True)
  | .readable _ _, _ => inferInstanceAs (Decidable True)
  | .writable _ _ _, _ => inferInstanceAs (Decidable True)

/-- The invariant of the pool: the free list has no duplicates, what is in the map is in use and
    has that socket, and what is in use is in the map. -/
structure SessionManager.Inv (m : SessionManager) : Prop where
  nodup : m.vctSessions.Nodup
  mapped : ∀ fd s, m.mapSessions fd = some s →
    s ∉ m.vctSessions ∧ (m.mallocSession s).socket = fd
  found : ∀ s, s ∉ m.vctSessions → m.mapSessions (m.mallocSession s).socket = some s

namespace SessionManager.Inv

variable {m m' : SessionManager}

/-- A session in use is found under its own socket alone. -/
theorem bound (h : m.Inv) : m.Bound := by
  intro s hs fd
  constructor
  · intro hmap
    exact (h.mapped fd s hmap).2
  · rintro rfl
    exact h.found s hs

/-- Calls that leave the bindings alone keep the invariant. -/
theorem of_sameBinding (h : m.Inv) (hsame : m.SameBinding m') : m'.Inv where
  nodup := by
    rw [hsame.vct]
    exact h.nodup
  mapped := by
    intro fd s hmap
    rw [hsame.map] at hmap
    rw [hsame.vct, hsame.socket]
    exact h.mapped fd s hmap
  found := by
    intro s hs
    rw [hsame.vct] at hs
    rw [hsame.map, hsame.socket]
    exact h.found s hs

/-- The pool starts with it. -/
theorem initSessions (mem : SessionPtr → RawSession) : (SessionManager.initSessions mem).Inv where
  nodup := List.nodup_finRange MAX_SESSION
  mapped := by
    intro fd s hmap
    cases hmap
  found := by
    intro s hs
    exact absurd (List.mem_finRange s) hs

/-- Entering a fresh socket for the first free session keeps the invariant. -/
theorem of_claim {session : SessionPtr} {rest : List SessionPtr} {fd : ℤ} (h : m.Inv)
    (hvct : m.vctSessions = session :: rest) (hfresh : m.mapSessions fd = none)
    (hvct' : m'.vctSessions = rest)
    (hmap' : m'.mapSessions = Function.update m.mapSessions fd (some session))
    (hsocket' : ∀ s, (m'.mallocSession s).socket =
      if s = session then fd else (m.mallocSession s).socket) : m'.Inv := by
  have hnodup := h.nodup
  rw [hvct, List.nodup_cons] at hnodup
  have hin : session ∈ m.vctSessions := by
    rw [hvct]
    exact List.mem_cons_self
  refine ⟨?_, ?_, ?_⟩
  · rw [hvct']
    exact hnodup.2
  · intro fd' s hs
    rw [hmap'] at hs
    by_cases hfd : fd' = fd
    · rw [hfd, Function.update_self] at hs
      cases hs
      rw [hvct', hsocket', if_pos rfl]
      exact ⟨hnodup.1, hfd.symm⟩
    · rw [Function.update_of_ne hfd] at hs
      obtain ⟨hnot, hsock⟩ := h.mapped fd' s hs
      -- what was in the map was in use, so it is not the session claimed now
      have hne : s ≠ session := fun heq => hnot (heq ▸ hin)
      rw [hvct', hsocket', if_neg hne]
      refine ⟨fun hmem => hnot ?_, hsock⟩
      rw [hvct]
      exact List.mem_cons_of_mem _ hmem
  · intro s hs
    rw [hvct'] at hs
    rw [hmap', hsocket']
    by_cases hne : s = session
    · rw [if_pos hne, Function.update_self, hne]
    · rw [if_neg hne]
      have hnot : s ∉ m.vctSessions := by
        rw [hvct, List.mem_cons]
        exact not_or.mpr ⟨hne, hs⟩
      have hfound := h.found s hnot
      have hfd : (m.mallocSession s).socket ≠ fd := by
        intro heq
        rw [heq, hfresh] at hfound
        cases hfound
      rw [Function.update_of_ne hfd, hfound]

end SessionManager.Inv

/-- One callback keeps the sessions bound exactly when it does not accept a descriptor that is
    still in the map. -/
theorem acceptBinds_step {g g' : GameServer} {e : ServerEvent} {o : Option SessionPtr}
    (h : g.manager.Inv) (hstep : g.step table e = some (o, g')) :
    (AcceptBinds g e o g' ↔ FreshSocket g e) ∧ (FreshSocket g e → g'.manager.Inv) := by
  -- the other callbacks leave the free list, the map and the sockets alone
  have hother : (∀ fd rand row, e ≠ .accept fd rand row) → g'.manager.Inv := fun he =>
    h.of_sameBinding (step_binding he hstep).2
  cases e with
  | accept fd rand row =>
    -- without a free session nothing is claimed, and nothing changes
    cases hvct : g.manager.vctSessions with
    | nil =>
      rw [GameServer.step, onAccept_full hvct] at hstep
      cases hstep
      have hfresh : FreshSocket g (.accept fd rand row) := fun hne => absurd hvct hne
      exact ⟨iff_of_true ⟨trivial, h.bound⟩ hfresh, fun _ => h⟩
    | cons session rest =>
      obtain ⟨rfl, hpos, hvct', hmap', hsocket'⟩ := onAccept_spec hvct hstep
      by_cases hfresh : g.manager.mapSessions fd = none
      · rw [if_pos hfresh] at hmap'
        have hinv := h.of_claim hvct hfresh hvct' hmap' hsocket'
        refine ⟨iff_of_true ⟨?_, hinv.bound⟩ fun _ => hfresh, fun _ => hinv⟩
        show g'.manager.getOneSession fd = some (some session)
        rw [SessionManager.getOneSession, if_pos hpos, hmap', Function.update_self]
      · -- the map still leads to another session
        rw [if_neg hfresh] at hmap'
        have hnot : ¬ FreshSocket g (.accept fd rand row) := fun hf =>
          hfresh (hf (by rw [hvct]; exact List.cons_ne_nil _ _))
        refine ⟨iff_of_false ?_ hnot, fun hf => absurd hf hnot⟩
        rintro ⟨hfinds, -⟩
        have hget : g'.manager.getOneSession fd = some (some session) := hfinds
        rw [SessionManager.getOneSession, if_pos hpos, hmap', Option.some_inj] at hget
        apply (h.mapped fd session hget).1
        rw [hvct]
        exact List.mem_cons_self
  | readable fd result =>
    have hinv := hother fun _ _ _ => ServerEvent.noConfusion
    exact ⟨iff_of_true ⟨trivial, hinv.bound⟩ trivial, fun _ => hinv⟩
  | writable fd message result =>
    have hinv := hother fun _ _ _ => ServerEvent.noConfusion
    exact ⟨iff_of_true ⟨trivial, hinv.bound⟩ trivial, fun _ => hinv⟩

/-- **Accepted sockets are bound as long as they are fresh.**  In every run of the callbacks,
    every `on_accept` binds its descriptor to the session it claims, and every session in use
    stays bound to its socket, exactly when no descriptor is accepted that is still in the
    map. -/
theorem acceptBinds_iff_fresh (table : UInt8 → UInt32) (mem : SessionPtr → RawSession)
    (heap : Heap) (events : List ServerEvent) (os : List (Option SessionPtr)) (g : GameServer)
    (hrun : run (GameServer.step table) (.start mem heap) events = some (os, g)) :
    AllTransitions (GameServer.step table) AcceptBinds (.start mem heap) events ↔
      AllSteps (GameServer.step table) FreshSocket (.start mem heap) events :=
  allTransitions_iff_allSteps (I := fun g => g.manager.Inv) (V := fun _ _ => True)
    (fun _ _ _ _ hI _ hstep => acceptBinds_step hI hstep) (SessionManager.Inv.initSessions mem)
    (AllSteps.of_forall (fun _ _ => trivial) _ _) hrun

/-- Two connections on different descriptors. -/
theorem acceptBinds_iff_fresh_two :
    ∃ os g, run (GameServer.step initialCrc32Table) (.start (fun _ => .zeroed) [])
        twoConnections = some (os, g) ∧
      (AllTransitions (GameServer.step initialCrc32Table) AcceptBinds
          (.start (fun _ => .zeroed) []) twoConnections ↔
        AllSteps (GameServer.step initialCrc32Table) FreshSocket
          (.start (fun _ => .zeroed) []) twoConnections) := by
  obtain ⟨⟨os, g⟩, hrun⟩ : ∃ r, run (GameServer.step initialCrc32Table)
      (.start (fun _ => .zeroed) []) twoConnections = some r :=
    Option.isSome_iff_exists.mp (by decide +kernel)
  exact ⟨os, g, hrun, acceptBinds_iff_fresh _ _ _ _ _ _ hrun⟩

/-- The promise of `on_accept`, over all runs. -/
def AcceptsBind (table : UInt8 → UInt32) : Prop :=
  ∀ (mem : SessionPtr → RawSession) (heap : Heap) (events : List ServerEvent),
    AllTransitions (GameServer.step table) AcceptBinds (.start mem heap) events

/-- Descriptor `5` is accepted, its peer closes the connection, and the system hands out `5`
    again: the map still leads to the session of the first connection. -/
theorem acceptsBind_fails : ¬ AcceptsBind initialCrc32Table := by
  intro h
  have hall := h (fun _ => .zeroed) []
    [.accept 5 1 fun _ => 1, .readable 5 (.bytes []), .accept 5 2 fun _ => 2]
  have hfinds := hall.mono (Q := fun _ e o g => FindsClaimed g.manager e o) fun _ _ _ _ h => h.1
  exact absurd hfinds (by decide +kernel)

/-! ### What a claimed session carries over -/

/-- A call of the manager, or whatever the owner of a session does to it. -/
inductive PoolOp where
  | claim
  | reclaim (session : SessionPtr)
  | use (session : SessionPtr) (f : NetSession → NetSession)

/-- One call; it puts out the session that `claim_one_session` returned. -/
def SessionManager.perform (m : SessionManager) : PoolOp →
    Option (Option SessionPtr × SessionManager)
  | .claim => some m.claimOneSession
  | .reclaim session => some (none, m.reclaimOneSession session)
  | .use session f => some (none, m.modifySession session f)

/-- Both rings and both queues are empty. -/
def NetSession.Drained (s : NetSession) : Prop :=
  s.readBuffer.empty = true ∧ s.writeBuffer.empty = true ∧ s.readQueue.isEmpty = true ∧
    s.writeQueue.isEmpty = true

/-- The promise of `claim_one_session`: the session it returns is drained. -/
def ClaimsDrained (_ : SessionManager) (_ : PoolOp) (o : Option SessionPtr)
    (m' : SessionManager) : Prop :=
  ∀ session ∈ o, (m'.mallocSession session).Drained

/-- A session is drained when it is reclaimed, and nobody fills one that is free. -/
def Disciplined (m : SessionManager) : PoolOp → Prop
  | .claim => True
  | .reclaim session => (m.mallocSession session).Drained
  | .use session f => session ∈ m.vctSessions → (f (m.mallocSession session)).Drained

instance (s : NetSession) : Decidable s.Drained := inferInstanceAs (Decidable (_ ∧ _ ∧ _ ∧ _))

instance (m : SessionManager) (op : PoolOp) (o : Option SessionPtr) (m' : SessionManager) :
    Decidable (ClaimsDrained m op o m') :=
  inferInstanceAs (Decidable (∀ _ ∈ o, _))

instance (m : SessionManager) (op : PoolOp) : Decidable (Disciplined m op) :=
  match op with
  | .claim => inferInstanceAs (Decidable True)
  | .reclaim _ => inferInstanceAs (Decidable (NetSession.Drained _))
  | .use _ _ => inferInstanceAs (Decidable (_ → NetSession.Drained _))

/-- Every free session is drained. -/
def SessionManager.FreeDrained (m : SessionManager) : Prop :=
  ∀ s ∈ m.vctSessions, (m.mallocSession s).Drained

/-- A disciplined call keeps the free sessions drained, and only hands out drained ones. -/
theorem perform_freeDrained {m m' : SessionManager} {op : PoolOp} {o : Option SessionPtr}
    (h : m.FreeDrained) (hop : Disciplined m op) (hstep : m.perform op = some (o, m')) :
    ClaimsDrained m op o m' ∧ m'.FreeDrained := by
  cases op with
  | claim =>
    rw [SessionManager.perform, SessionManager.claimOneSession, Option.some_inj] at hstep
    cases hvct : m.vctSessions with
    | nil =>
      rw [hvct] at hstep
      cases hstep
      exact ⟨fun s hs => (Option.not_mem_none s hs).elim, h⟩
    | cons session rest =>
      rw [hvct] at hstep
      cases hstep
      refine ⟨?_, ?_⟩
      · intro s hs
        obtain rfl := Option.mem_some_iff.mp hs
        exact h session (by rw [hvct]; exact List.mem_cons_self)
      · intro s hs
        exact h s (by rw [hvct]; exact List.mem_cons_of_mem _ hs)
  | reclaim session =>
    cases hstep
    refine ⟨fun s hs => (Option.not_mem_none s hs).elim, ?_⟩
    intro s hs
    rcases List.mem_append.mp hs with hmem | hmem
    · exact h s hmem
    · -- the session that is reclaimed: the caller has drained it
      rw [List.mem_singleton.mp hmem]
      exact hop
  | use session f =>
    cases hstep
    refine ⟨fun s hs => (Option.not_mem_none s hs).elim, ?_⟩
    intro s hs
    -- a session in use may be free only if the caller leaves it drained
    by_cases hne : s = session
    · subst hne
      rw [SessionManager.modifySession_self]
      exact hop hs
    · rw [SessionManager.modifySession_of_ne hne]
      exact h s hs

/-- **A claimed session carries nothing over, if nothing was left in it.**  When the memory of
    the array happened to hold empty queues, every session `claim_one_session` returns is
    drained, in every history in which sessions are drained before they are reclaimed and left
    alone while they are free. -/
theorem claimed_drained (mem : SessionPtr → RawSession) (ops : List PoolOp)
    (hmem : ∀ s, (mem s).readQueue.isEmpty = true ∧ (mem s).writeQueue.isEmpty = true)
    (hops : AllSteps SessionManager.perform Disciplined (.initSessions mem) ops) :
    AllTransitions SessionManager.perform ClaimsDrained (.initSessions mem) ops := by
  refine AllTransitions.of_allSteps (fun _ _ _ _ => perform_freeDrained) ?_ hops
  intro s _
  exact ⟨RingBuffer.empty_new _ _ _, RingBuffer.empty_new _ _ _, hmem s⟩

/-- The first session is claimed, receives a byte, hands it on, and is reclaimed; then all ten
    are claimed. -/
def tenClaims : List PoolOp :=
  let first : SessionPtr := ⟨0, by decide⟩
  [.claim, .use first fun s => { s with readBuffer := (s.readBuffer.kfifoPut (fun _ => 7) 1).2 },
    .use first fun s => { s with readBuffer := (s.readBuffer.kfifoGet 1).2.2 }, .reclaim first] ++
    List.replicate 10 .claim

/-- One session is used and freed again, and then all ten are claimed. -/
theorem claimed_drained_ten :
    AllTransitions SessionManager.perform ClaimsDrained (.initSessions fun _ => .zeroed)
      tenClaims :=
  claimed_drained _ _ (fun _ => ⟨rfl, rfl⟩) (by decide +kernel)

/-- The promise of `claim_one_session`, over all contents of the memory and all histories. -/
def ClaimedDrained : Prop :=
  ∀ (mem : SessionPtr → RawSession) (ops : List PoolOp),
    AllTransitions SessionManager.perform ClaimsDrained (.initSessions mem) ops

/-- The memory of a session holds `1` where its read queue keeps the push index: the first
    claim hands out a queue with an entry nobody pushed. -/
theorem claimedDrained_fails : ¬ ClaimedDrained := by
  intro h
  have hall := h (fun _ => { RawSession.zeroed with readQueue := ⟨fun _ => 0, 1, 0⟩ }) [.claim]
  exact absurd hall (by decide +kernel)

end LeoNet
