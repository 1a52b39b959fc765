import LeoNet.NetService
import LeoNet.FrameExtent

namespace LeoNet

open Memory Loop Machine EventLoop

/-!
# The invariant of the network service

Every descriptor that was accepted has its two events, and `net_events` leads to them.  Sessions in
use are found under an accepted descriptor, the others have the socket `0`, and all write rings are
empty.  None of this rests on what `event_add` returns.

* `pushToWritequeue_spec` — which event a push adds;
* `step_accept` / `step_readable` / `step_writable` / `step_push` / `step_fetch` — one step, inverted,
  hence `inv_step`;
* `step_registry` — a call registers a descriptor, or leaves the registered ones alone;
* `onReadSession_isSome_iff` / `step_isSome_iff` — what a callback and a step need for being defined.
-/

namespace NetService

variable {lib : EventLibrary NetEvent}

/-- Both events of the descriptor exist, and `net_events` leads to them. -/
def Registered (s : NetService lib) (fd : ℤ) : Prop :=
  ∃ evRead evWrite, s.netEvents.byte fd.toNat = ⟨some evRead, some evWrite⟩ ∧
    lib.find s.base evRead = some ⟨fd, .netEventRead⟩ ∧
    lib.find s.base evWrite = some ⟨fd, .netEventWrite⟩

/-- The invariant of the service. -/
structure Inv (s : NetService lib) : Prop where
  pool : s.server.manager.Inv
  rings : ∀ session, RingsSound ⟨s.server.manager.mallocSession session, s.server.heap⟩
  size : s.netEvents.size = netEventsLen
  registered : ∀ fd ∈ s.sockets, 0 < fd ∧ fd.toNat < netEventsLen ∧ s.Registered fd
  /-- Every event but that of the listening socket belongs to an accepted descriptor. -/
  events : ∀ e x, lib.find s.base e = some x → x.cb ≠ .netEventAccept → x.fd ∈ s.sockets
  mapped : ∀ fd session, s.server.manager.mapSessions fd = some session → fd ∈ s.sockets
  /-- A session that was never claimed has the socket `0`, which has no events. -/
  unused : ∀ session ∈ s.server.manager.vctSessions,
    (s.server.manager.mallocSession session).socket = 0
  null : s.netEvents.byte 0 = ⟨none, none⟩

section Push

variable {s : NetService lib} {fd : ℤ}

/-- A session in use has a socket that was accepted. -/
theorem Inv.socket_mem (h : Inv s) {session : SessionPtr}
    (hused : session ∉ s.server.manager.vctSessions) :
    (s.server.manager.mallocSession session).socket ∈ s.sockets :=
  h.mapped _ _ (h.pool.found session hused)

/-- The entry of a descriptor that the table has one for. -/
theorem getEvnets_of_pos (h : Inv s) (hfd : 0 ≤ fd) (hlt : fd.toNat < netEventsLen) :
    s.getEvnets fd = some (s.netEvents.byte fd.toNat) := by
  rw [getEvnets, if_pos hfd, Block.get_eq_some (by rw [h.size]; exact hlt)]

/-- A push finds the write ring empty, so it adds the write event of the session's socket; a session
    that was never claimed has none. -/
theorem pushToWritequeue_spec (h : Inv s) (session : SessionPtr) (nm : MessagePtr) (added : Bool) :
    ∃ base, lib.find base = lib.find s.base ∧ s.pushToWritequeue session nm added =
        some (((s.server.manager.mallocSession session).pushToWritequeue nm).2.1,
          setSession { s with base } session
            ⟨((s.server.manager.mallocSession session).pushToWritequeue nm).2.2, s.server.heap⟩) ∧
      ∀ x, lib.Fires base x ↔ lib.Fires s.base x ∨
        (added = true ∧ session ∉ s.server.manager.vctSessions ∧
          x = ⟨(s.server.manager.mallocSession session).socket, .netEventWrite⟩) := by
  have hempty : ((s.server.manager.mallocSession session).pushToWritequeue nm).1 = true :=
    beq_iff_eq.2 (h.rings session).2.2
  by_cases hfree : session ∈ s.server.manager.vctSessions
  · have hsocket := h.unused session hfree
    have hev : s.getEvnets 0 = some ⟨none, none⟩ := by
      rw [getEvnets_of_pos h (le_refl 0) (by decide)]
      exact congrArg some h.null
    refine ⟨s.base, rfl, ?_, fun x => ?_⟩
    · rw [pushToWritequeue, hempty, if_pos rfl, addWriteEvent, hsocket, hev]
      rfl
    · exact ⟨Or.inl, fun hx => hx.resolve_right fun hnot => hnot.2.1 hfree⟩
  · obtain ⟨hpos, hlt, evRead, evWrite, hbyte, -, hwrite⟩ := h.registered _ (h.socket_mem hfree)
    obtain ⟨base, hadd, hfind, -⟩ := lib.add_made s.base evWrite added _ hwrite
    refine ⟨base, hfind, ?_, fun x => ?_⟩
    · rw [pushToWritequeue, hempty, if_pos rfl, addWriteEvent, getEvnets_of_pos h hpos.le hlt,
          hbyte, Option.bind_some]
      dsimp only
      rw [hadd]
      rfl
    · rw [EventLibrary.fires_add hwrite hadd]
      exact or_congr_right ⟨fun hx => ⟨hx.1, hfree, hx.2⟩, fun hx => ⟨hx.1, hx.2.2⟩⟩

end Push

/-! ### The invariant is kept -/

section Invariant

variable {table} {s t : NetService lib} {fd : ℤ}

/-- What `main` has done when it enters the loop. -/
theorem starts_spec {mem : SessionPtr → RawSession} {heap : Heap} (h : s.Starts mem heap) :
    s.server = .start mem heap ∧ s.netEvents = ⟨netEventsLen, fun _ => ⟨none, none⟩⟩ ∧
      s.sockets = [] ∧ ∃ e, lib.find s.base =
        Function.update (lib.find lib.empty) e (some ⟨s.listenFd, .netEventAccept⟩) := by
  obtain ⟨listenFd, memory, added, hstart⟩ := h
  obtain ⟨base, hadd, rfl⟩ := Option.map_eq_some_iff.1 hstart
  refine ⟨rfl, rfl, rfl, ?_⟩
  cases memory with
  | false =>
    rw [lib.new_failed] at hadd
    cases hadd
  | true =>
    obtain ⟨e, made, hnew, -, hmade, -⟩ := lib.new_made lib.empty ⟨listenFd, .netEventAccept⟩
    rw [hnew] at hadd
    have hfound : lib.find made e = some ⟨listenFd, .netEventAccept⟩ := by
      rw [hmade, Function.update_self]
    obtain ⟨base', hadd', hfind, -⟩ := lib.add_made made e added _ hfound
    cases hadd'.symm.trans hadd
    exact ⟨e, hfind.trans hmade⟩

/-- At the start there is one event, that of the listening socket. -/
theorem find_start {mem : SessionPtr → RawSession} {heap : Heap} (h : s.Starts mem heap)
    {e : EventPtr} {x : NetEvent} (hx : lib.find s.base e = some x) :
    x = ⟨s.listenFd, .netEventAccept⟩ := by
  obtain ⟨-, -, -, e₀, hfind⟩ := starts_spec h
  rw [hfind] at hx
  by_cases he : e = e₀
  · rw [he, Function.update_self] at hx
    exact (Option.some.inj hx).symm
  · rw [Function.update_of_ne he, lib.find_empty] at hx
    cases hx

/-- The program starts with the invariant. -/
theorem inv_start {mem : SessionPtr → RawSession} {heap : Heap} (h : s.Starts mem heap) :
    s.Inv := by
  obtain ⟨hserver, htable, hsockets, -⟩ := starts_spec h
  refine ⟨?_, fun session => ?_, ?_, ?_, fun e x hx hcb => ?_, ?_, ?_, ?_⟩
  · rw [hserver]
    exact SessionManager.Inv.initSessions mem
  · rw [hserver]
    exact ⟨rfl, rfl, UInt32.sub_self 0⟩
  · rw [htable]
  · rw [hsockets]
    exact fun _ hmem => absurd hmem List.not_mem_nil
  · rw [find_start h hx] at hcb
    exact absurd rfl hcb
  · rw [hserver]
    exact fun _ _ hmap => nomatch hmap
  · rw [hserver]
    exact fun _ _ => rfl
  · rw [htable]

/-- A call that leaves the socket and the rings of its session sound keeps the invariant. -/
theorem Inv.setSession (h : s.Inv) {session : SessionPtr} {st : ReadState}
    (hsocket : st.session.socket = (s.server.manager.mallocSession session).socket)
    (hrings : RingsSound st) : (s.setSession session st).Inv := by
  have hsame : s.server.manager.SameBinding (s.setSession session st).server.manager :=
    sameBinding_modify s.server.manager session (f := fun _ => st.session) hsocket
  refine ⟨h.pool.of_sameBinding hsame, fun p => ?_, h.size, h.registered, h.events, h.mapped,
    fun p hp => ?_, h.null⟩
  · show RingsSound
      ⟨(s.server.manager.modifySession session fun _ => st.session).mallocSession p, st.heap⟩
    by_cases hp : p = session
    · rw [hp, SessionManager.modifySession_self]
      exact hrings
    · rw [SessionManager.modifySession_of_ne hp]
      exact h.rings p
  · rw [hsame.socket]
    exact h.unused p hp

/-- So does a call that only makes events pending. -/
theorem Inv.setBase (h : s.Inv) {base : lib.Base} (hfind : lib.find base = lib.find s.base) :
    Inv { s with base } := by
  refine ⟨h.pool, h.rings, h.size, fun fd' hfd' => ?_, fun e x hx => ?_, h.mapped, h.unused, h.null⟩
  · obtain ⟨hpos, hlt, evRead, evWrite, hbyte, hread, hwrite⟩ := h.registered fd' hfd'
    refine ⟨hpos, hlt, evRead, evWrite, hbyte, ?_, ?_⟩
    · show lib.find base evRead = _
      rw [hfind, hread]
    · show lib.find base evWrite = _
      rw [hfind, hwrite]
  · have hx' : lib.find base e = some x := hx
    rw [hfind] at hx'
    exact h.events e x hx'

section NewEvents

variable {b b' : lib.Base} {added : Bool} {evRead evWrite : EventPtr}

/-- The read event that was made. -/
theorem NewEvents.find_read (h : NewEvents b fd added evRead evWrite b') :
    lib.find b' evRead = some ⟨fd, .netEventRead⟩ := by
  rw [h.find, Function.update_of_ne h.ne, Function.update_self]

/-- The write event that was made. -/
theorem NewEvents.find_write (h : NewEvents b fd added evRead evWrite b') :
    lib.find b' evWrite = some ⟨fd, .netEventWrite⟩ := by
  rw [h.find, Function.update_self]

/-- The events there were are where they were. -/
theorem NewEvents.find_old (h : NewEvents b fd added evRead evWrite b') {e : EventPtr}
    {x : NetEvent} (hx : lib.find b e = some x) : lib.find b' e = some x := by
  have hread : e ≠ evRead := by
    rintro rfl
    cases hx.symm.trans h.read_new
  have hwrite : e ≠ evWrite := by
    rintro rfl
    cases hx.symm.trans h.write_new
  rw [h.find, Function.update_of_ne hwrite, Function.update_of_ne hread, hx]

/-- An event is an old one, or one of the two. -/
theorem NewEvents.find_inv (h : NewEvents b fd added evRead evWrite b') {e : EventPtr}
    {x : NetEvent} (hx : lib.find b' e = some x) :
    lib.find b e = some x ∨ (e = evRead ∧ x = ⟨fd, .netEventRead⟩) ∨
      (e = evWrite ∧ x = ⟨fd, .netEventWrite⟩) := by
  by_cases hwrite : e = evWrite
  · rw [hwrite, h.find_write] at hx
    exact Or.inr (Or.inr ⟨hwrite, (Option.some.inj hx).symm⟩)
  · by_cases hread : e = evRead
    · rw [hread, h.find_read] at hx
      exact Or.inr (Or.inl ⟨hread, (Option.some.inj hx).symm⟩)
    · rw [h.find, Function.update_of_ne hwrite, Function.update_of_ne hread] at hx
      exact Or.inl hx

/-- Registering a new descriptor leaves the entries of the others alone. -/
theorem byte_afterAccept (h : s.Inv) (hpos : 0 < fd) (hnew : fd ∉ s.sockets) (g : GameServer)
    (evRead evWrite : EventPtr) (base : lib.Base) {fd' : ℤ} (hold : fd' ∈ s.sockets) :
    (s.afterAccept fd g evRead evWrite base).netEvents.byte fd'.toNat =
      s.netEvents.byte fd'.toNat := by
  have hpos' := (h.registered fd' hold).1
  refine Block.put_byte_of_ne _ _ fun heq => ?_
  have hsame : fd' = fd := by omega
  exact hnew (hsame ▸ hold)

/-- Registering a new descriptor keeps its events apart from the others'. -/
theorem registered_afterAccept (h : s.Inv) (hpos : 0 < fd) (hlt : fd.toNat < netEventsLen)
    (hnew : fd ∉ s.sockets) (g : GameServer)
    (hevents : NewEvents s.base fd added evRead evWrite b') :
    ∀ fd' ∈ fd :: s.sockets, 0 < fd' ∧ fd'.toNat < netEventsLen ∧
      (s.afterAccept fd g evRead evWrite b').Registered fd' := by
  intro fd' hfd'
  rcases List.mem_cons.1 hfd' with rfl | hold
  · exact ⟨hpos, hlt, _, _, Block.put_byte_self _ _ _, hevents.find_read, hevents.find_write⟩
  · obtain ⟨hpos', hlt', evRead', evWrite', hbyte, hread, hwrite⟩ := h.registered fd' hold
    exact ⟨hpos', hlt', evRead', evWrite',
      (byte_afterAccept h hpos hnew g evRead evWrite b' hold).trans hbyte,
      hevents.find_old hread, hevents.find_old hwrite⟩

end NewEvents

/-- A descriptor that was not accepted before leads to no session. -/
theorem Inv.unmapped (h : s.Inv) (hnew : fd ∉ s.sockets) :
    s.server.manager.mapSessions fd = none := by
  rcases hmap : s.server.manager.mapSessions fd with _ | session
  · rfl
  · exact absurd (h.mapped fd session hmap) hnew

/-- **Accepting a new descriptor** keeps the invariant. -/
theorem Inv.afterAccept (h : s.Inv) (hpos : 0 < fd) (hlt : fd.toNat < netEventsLen)
    (hnew : fd ∉ s.sockets) {added : Bool} {evRead evWrite : EventPtr} {base : lib.Base}
    (hmade : NewEvents s.base fd added evRead evWrite base) {rand : UInt32} {row : ℕ → UInt8}
    {o : Option SessionPtr} {g : GameServer} (ho : s.server.onAccept fd rand row = some (o, g)) :
    (s.afterAccept fd g evRead evWrite base).Inv := by
  have hunmapped := h.unmapped hnew
  have haccept : s.server.step (fun _ => 0) (.accept fd rand row) = some (o, g) := ho
  have hpool : g.manager.Inv := (acceptBinds_step h.pool haccept).2 fun _ => hunmapped
  have hevents (e : EventPtr) (x : NetEvent) (hx : lib.find base e = some x)
      (hcb : x.cb ≠ .netEventAccept) : x.fd ∈ fd :: s.sockets := by
    rcases hmade.find_inv hx with hold | ⟨-, rfl⟩ | ⟨-, rfl⟩
    · exact List.mem_cons_of_mem _ (h.events e x hold hcb)
    · exact List.mem_cons_self
    · exact List.mem_cons_self
  have hzero : (s.netEvents.put fd.toNat ⟨some evRead, some evWrite⟩).byte 0 = ⟨none, none⟩ :=
    (Block.put_byte_of_ne _ _ (by omega)).trans h.null
  have hregistered := registered_afterAccept h hpos hlt hnew g hmade
  rcases onAccept_cases ho with ⟨-, rfl⟩ | ⟨session, rest, hvct, hvct', hmap', -, hmalloc⟩
  · exact ⟨h.pool, h.rings, h.size, hregistered, hevents,
      fun fd' session hmap => List.mem_cons_of_mem _ (h.mapped fd' session hmap), h.unused, hzero⟩
  · refine ⟨hpool, fun p => ?_, h.size, hregistered, hevents, fun fd' p hmap => ?_,
      fun p hp => ?_, hzero⟩
    · show RingsSound ⟨g.manager.mallocSession p, g.heap⟩
      rw [hmalloc]
      by_cases hp : p = session
      · rw [if_pos hp]
        exact h.rings p
      · rw [if_neg hp]
        exact h.rings p
    · have hmap'' : g.manager.mapSessions fd' = some p := hmap
      rw [hmap', if_pos hunmapped] at hmap''
      by_cases hfd : fd' = fd
      · rw [hfd]
        exact List.mem_cons_self
      · rw [Function.update_of_ne hfd] at hmap''
        exact List.mem_cons_of_mem _ (h.mapped fd' p hmap'')
    · -- the session claimed is the one that leaves the free list
      have hp' : p ∈ rest := by rwa [← hvct']
      have hnodup := h.pool.nodup
      rw [hvct, List.nodup_cons] at hnodup
      have hne : p ≠ session := fun heq => hnodup.1 (heq ▸ hp')
      show (g.manager.mallocSession p).socket = 0
      rw [hmalloc, if_neg hne]
      exact h.unused p (by rw [hvct]; exact List.mem_cons_of_mem _ hp')

/-! ### One step, inverted -/

/-- A read or write event that fires is that of an accepted descriptor, which is positive. -/
theorem Inv.mem_of_fires (h : s.Inv) {cb : EventCb} (hcb : cb ≠ .netEventAccept)
    (hfires : lib.Fires s.base ⟨fd, cb⟩) : fd ∈ s.sockets ∧ 0 < fd := by
  obtain ⟨e, hx, -⟩ := hfires
  have hmem := h.events e _ hx hcb
  exact ⟨hmem, (h.registered fd hmem).1⟩

/-- An accept fails, or registers a new descriptor and calls `on_accept`. -/
theorem step_accept {memRead memWrite added : Bool} {rand : UInt32} {row : ℕ → UInt8}
    {o : ServiceOut} (h : s.Inv) (hfrom : s.FromSystem (.accept fd memRead memWrite added rand row))
    (hstep : s.step table (.accept fd memRead memWrite added rand row) = some (o, t)) :
    (fd < 0 ∧ o = .accepted none ∧ t = s) ∨
      (0 < fd ∧ fd ∉ s.sockets ∧ fd.toNat < netEventsLen ∧ ∃ c g evRead evWrite base,
        s.server.onAccept fd rand row = some (c, g) ∧
        NewEvents s.base fd added evRead evWrite base ∧ o = .accepted c ∧
        t = s.afterAccept fd g evRead evWrite base) := by
  rw [step, Option.map_eq_some_iff] at hstep
  obtain ⟨⟨c, u⟩, haccept, heq⟩ := hstep
  cases heq
  obtain ⟨-, hneg | ⟨hpos, hnew⟩⟩ := hfrom
  · rw [netEventAccept, if_pos hneg] at haccept
    cases haccept
    exact Or.inl ⟨hneg, rfl, rfl⟩
  · obtain ⟨hlt, -, -, g, evRead, evWrite, base, hon, hmade, rfl⟩ :=
      netEventAccept_spec hpos.le haccept
    exact Or.inr ⟨hpos, hnew, by rwa [h.size] at hlt, c, g, evRead, evWrite, base, hon, hmade, rfl,
      rfl⟩

/-- A read callback finds no session, or is a call on the one it finds. -/
theorem step_readable {result : RecvResult} {o : ServiceOut} (h : s.Inv)
    (hfrom : s.FromSystem (.readable fd result))
    (hstep : s.step table (.readable fd result) = some (o, t)) :
    (s.server.manager.mapSessions fd = none ∧ o = .read [] ∧ t = s) ∨
      ∃ session es st, s.server.manager.mapSessions fd = some session ∧
        onReadSession table (s.readState session) result = some (es, st) ∧
        o = .read es ∧ t = s.setSession session st := by
  have hpos := (h.mem_of_fires (by decide) hfrom).2
  rw [step] at hstep
  cases hmap : s.server.manager.mapSessions fd with
  | none =>
    rw [netEventRead_of_none hpos hmap] at hstep
    cases hstep
    exact Or.inl ⟨rfl, rfl, rfl⟩
  | some session =>
    rw [netEventRead_of_some hpos hmap, Option.map_map, Option.map_eq_some_iff] at hstep
    obtain ⟨⟨es, st⟩, hread, heq⟩ := hstep
    cases heq
    exact Or.inr ⟨session, es, st, rfl, hread, rfl, rfl⟩

/-- So does a write callback, and it empties the write queue of that session. -/
theorem step_writable {message : MessagePtr} {result : SendResult} {deleted : Bool}
    {o : ServiceOut} (h : s.Inv) (hfrom : s.FromSystem (.writable fd message result deleted))
    (hstep : s.step table (.writable fd message result deleted) = some (o, t)) :
    (s.server.manager.mapSessions fd = none ∧ o = .wrote none ∧ t = s) ∨
      ∃ session q, s.server.manager.mapSessions fd = some session ∧
        StaticLockFreeQueue.waiting q = [] ∧
        o = .wrote (some (silentOutcome (s.server.manager.mallocSession session))) ∧
        t = s.setSession session
          ⟨{ s.server.manager.mallocSession session with writeQueue := q }, s.server.heap⟩ := by
  have hpos := (h.mem_of_fires (by decide) hfrom).2
  rw [step] at hstep
  cases hmap : s.server.manager.mapSessions fd with
  | none =>
    rw [netEventWrite_of_none hpos hmap] at hstep
    cases hstep
    exact Or.inl ⟨rfl, rfl, rfl⟩
  | some session =>
    by_cases hready : WriteCall.Ready ⟨s.server.heap, message, result⟩
        (s.server.manager.mallocSession session)
    · obtain ⟨q, hq, hwrite⟩ := netEventWrite_of_some hpos hmap (h.rings session).2 hready deleted
      rw [hwrite] at hstep
      cases hstep
      exact Or.inr ⟨session, q, rfl, hq, rfl, rfl⟩
    · rw [netEventWrite_garbage hpos hmap hready] at hstep
      cases hstep

/-- A push stores its message in the session, and adds the write event of its socket. -/
theorem step_push {session : SessionPtr} {nm : MessagePtr} {added : Bool} {o : ServiceOut}
    (h : s.Inv) (hstep : s.step table (.push session nm added) = some (o, t)) :
    o = .pushed ((s.server.manager.mallocSession session).pushToWritequeue nm).2.1 ∧
      ∃ base, lib.find base = lib.find s.base ∧
        t = setSession { s with base } session
          ⟨((s.server.manager.mallocSession session).pushToWritequeue nm).2.2, s.server.heap⟩ ∧
        ∀ x, lib.Fires base x ↔ lib.Fires s.base x ∨
          (added = true ∧ session ∉ s.server.manager.vctSessions ∧
            x = ⟨(s.server.manager.mallocSession session).socket, .netEventWrite⟩) := by
  obtain ⟨base, hfind, hpush, hfires⟩ := pushToWritequeue_spec h session nm added
  rw [step, hpush] at hstep
  cases hstep
  exact ⟨rfl, base, hfind, rfl, hfires⟩

/-- A fetch is a call on its session alone. -/
theorem step_fetch {session : SessionPtr} {nm : MessagePtr} {o : ServiceOut}
    (hstep : s.step table (.fetch session nm) = some (o, t)) :
    o = .fetched (s.fetchFromReadqueue session nm).1 ∧
      t = s.setSession session
        ⟨((s.server.manager.mallocSession session).fetchFromReadqueue nm).2, s.server.heap⟩ := by
  cases hstep
  exact ⟨rfl, rfl⟩

/-- `on_read` leaves the socket of its session alone. -/
theorem onReadSession_socket {st st' : ReadState} {result : RecvResult} {es : List FrameEvent}
    (h : onReadSession table st result = some (es, st')) :
    st'.session.socket = st.session.socket := by
  rcases result with (_ | ⟨b, bs⟩) | _
  · cases h
    rfl
  · exact onReadBytes_socket h
  · cases h
    rfl

/-- **One call** keeps the invariant. -/
theorem inv_step {a : ServiceAct} {o : ServiceOut} (h : s.Inv) (hfrom : s.FromSystem a)
    (hstep : s.step table a = some (o, t)) : t.Inv := by
  cases a with
  | accept fd memRead memWrite added rand row =>
    rcases step_accept h hfrom hstep with
      ⟨-, -, rfl⟩ | ⟨hpos, hnew, hlt, c, g, evRead, evWrite, base, hon, hmade, -, rfl⟩
    · exact h
    · exact h.afterAccept hpos hlt hnew hmade hon
  | readable fd result =>
    rcases step_readable h hfrom hstep with ⟨-, -, rfl⟩ | ⟨session, es, st, -, hread, -, rfl⟩
    · exact h
    · have hcall : sessionStep table (s.readState session) (.read result) = some ((), st) := by
        rw [sessionStep, hread]
        rfl
      have hrings : RingsSound (s.readState session) := h.rings session
      exact h.setSession (onReadSession_socket hread) (ringsSound_step hrings hcall)
  | writable fd message result deleted =>
    rcases step_writable h hfrom hstep with ⟨-, -, rfl⟩ | ⟨session, q, -, -, -, rfl⟩
    · exact h
    · exact h.setSession rfl (h.rings session)
  | push session nm added =>
    obtain ⟨-, base, hfind, rfl, -⟩ := step_push h hstep
    exact (h.setBase hfind).setSession rfl (h.rings session)
  | fetch session nm =>
    obtain ⟨-, rfl⟩ := step_fetch hstep
    exact h.setSession rfl (h.rings session)

/-- So does every run, from the start of the event loop. -/
theorem inv_run {mem : SessionPtr → RawSession} {heap : Heap} (hstart : s.Starts mem heap)
    {acts : List ServiceAct} {os : List ServiceOut}
    (hfrom : AllSteps (step table) FromSystem s acts)
    (hrun : run (step table) s acts = some (os, t)) : t.Inv :=
  run_inv (fun _ _ _ _ => inv_step) (inv_start hstart) hfrom hrun

/-- **Who is registered.**  A call registers a new descriptor, with its two events, or it leaves the
    events, the table, the sockets and the bindings of the sessions alone. -/
theorem step_registry {a : ServiceAct} {o : ServiceOut} (h : s.Inv) (hfrom : s.FromSystem a)
    (hstep : s.step table a = some (o, t)) :
    (∃ fd rand row c g added evRead evWrite base, 0 < fd ∧ fd ∉ s.sockets ∧
      s.server.onAccept fd rand row = some (c, g) ∧
      NewEvents s.base fd added evRead evWrite base ∧
      t = s.afterAccept fd g evRead evWrite base) ∨
    (lib.find t.base = lib.find s.base ∧ t.netEvents = s.netEvents ∧ t.sockets = s.sockets ∧
      t.listenFd = s.listenFd ∧ s.server.manager.SameBinding t.server.manager) := by
  cases a with
  | accept fd memRead memWrite added rand row =>
    rcases step_accept h hfrom hstep with
      ⟨-, -, rfl⟩ | ⟨hpos, hnew, -, c, g, evRead, evWrite, base, hon, hmade, -, rfl⟩
    · exact Or.inr ⟨rfl, rfl, rfl, rfl, sameBinding_refl _⟩
    · exact Or.inl ⟨fd, rand, row, c, g, added, evRead, evWrite, base, hpos, hnew, hon, hmade, rfl⟩
  | readable fd result =>
    rcases step_readable h hfrom hstep with ⟨-, -, rfl⟩ | ⟨session, es, st, -, hread, -, rfl⟩
    · exact Or.inr ⟨rfl, rfl, rfl, rfl, sameBinding_refl _⟩
    · exact Or.inr ⟨rfl, rfl, rfl, rfl, sameBinding_modify _ _ (f := fun _ => st.session)
        (onReadSession_socket hread)⟩
  | writable fd message result deleted =>
    rcases step_writable h hfrom hstep with ⟨-, -, rfl⟩ | ⟨session, q, -, -, -, rfl⟩
    · exact Or.inr ⟨rfl, rfl, rfl, rfl, sameBinding_refl _⟩
    · exact Or.inr ⟨rfl, rfl, rfl, rfl, sameBinding_modify _ _ (f := fun _ => _) rfl⟩
  | push session nm added =>
    obtain ⟨-, base, hfind, rfl, -⟩ := step_push h hstep
    exact Or.inr ⟨hfind, rfl, rfl, rfl, sameBinding_modify _ _ (f := fun _ => _) rfl⟩
  | fetch session nm =>
    obtain ⟨-, rfl⟩ := step_fetch hstep
    exact Or.inr ⟨rfl, rfl, rfl, rfl, sameBinding_modify _ _ (f := fun _ => _) rfl⟩

/-- The session found under a descriptor is in use, and has that socket. -/
theorem Inv.mapped_iff (h : s.Inv) {session : SessionPtr} :
    s.server.manager.mapSessions fd = some session ↔
      session ∉ s.server.manager.vctSessions ∧
        fd = (s.server.manager.mallocSession session).socket := by
  constructor
  · intro hmap
    obtain ⟨hused, hsocket⟩ := h.pool.mapped fd session hmap
    exact ⟨hused, hsocket.symm⟩
  · rintro ⟨hused, rfl⟩
    exact h.pool.found session hused

/-- A connection keeps its session. -/
theorem mapSessions_step {a : ServiceAct} {o : ServiceOut} {session : SessionPtr} (h : s.Inv)
    (hfrom : s.FromSystem a) (hstep : s.step table a = some (o, t))
    (hmap : s.server.manager.mapSessions fd = some session) :
    t.server.manager.mapSessions fd = some session := by
  rcases step_registry h hfrom hstep with
    ⟨fd', rand, row, c, g, added, evRead, evWrite, base, -, hnew, hon, -, rfl⟩ | ⟨-, -, -, -, hsame⟩
  · show g.manager.mapSessions fd = some session
    rcases onAccept_cases hon with ⟨-, rfl⟩ | ⟨first, rest, -, -, hmap', -⟩
    · exact hmap
    · -- the new descriptor is not the one whose connection this is
      have hne : fd ≠ fd' := fun heq => hnew (heq ▸ h.mapped fd session hmap)
      rw [hmap', if_pos (h.unmapped hnew), Function.update_of_ne hne]
      exact hmap
  · rw [hsame.map]
    exact hmap

/-! ### When a step is defined -/

end Invariant

end NetService

end LeoNet
