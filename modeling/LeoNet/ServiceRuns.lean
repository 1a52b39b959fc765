import LeoNet.ServiceInvariant

namespace LeoNet

open Memory Loop Machine EventLoop

/-!
# Runs of the network service

From the start of the event loop, with any event library, whatever the memory of the sessions held and
whatever the peers, the system and the logic thread do, as long as `accept` returns no descriptor twice:

* `service_defined_iff` — what a run needs for being defined, and `events_accounted`: each accepted
  descriptor has exactly its two events, and none is ever released;
* `fires_step` — the calls that make an event pending, hence `writeFires_iff_pushed`: the write event
  of a connection is pending exactly when a push for it has added it;
* `never_sends` — no byte is ever sent, and no write event is ever disarmed;
* `served_in_order` — the first ten connections get the ten sessions in order, and the others none.
-/

/-- The service, with its events in a list. -/
abbrev ListService := NetService (EventBase.library NetEvent)

namespace NetService

variable {lib : EventLibrary NetEvent} {table : UInt8 → UInt32} {s t : NetService lib} {fd : ℤ}
  {mem : SessionPtr → RawSession} {heap : Heap} {acts : List ServiceAct} {os : List ServiceOut}

/-- The first of the sessions. -/
def firstSession : SessionPtr := ⟨0, Nat.succ_pos _⟩

/-- The service with its events in a list, zeroed sessions, and the listening socket `3`. -/
def listService (heap : Heap) : ListService :=
  (start _ 3 (fun _ => .zeroed) heap true true).get rfl

/-- It is one that `main` enters its event loop with. -/
theorem listService_starts (heap : Heap) : (listService heap).Starts (fun _ => .zeroed) heap :=
  ⟨3, true, true, rfl⟩

/-- One connection, for which two messages are pushed, the second of them with success: its write
    event fires, then a frame comes in, and its message is fetched. -/
def oneConnection : List ServiceAct :=
  [.accept 5 true true true 1 fun _ => 1, .push firstSession 0 false, .push firstSession 0 true,
    .writable 5 0 (.accepted 1) true, .readable 5 (.bytes [4, 0, 1, 1]),
    .accept (-1) true true true 0 fun _ => 0, .fetch firstSession 0]

/-- `accept` returns no descriptor twice there, and only pending events fire. -/
theorem oneConnection_fromSystem :
    AllSteps (step initialCrc32Table) FromSystem (listService [NetMessage.new]) oneConnection := by
  decide +kernel

/-- It goes through. -/
theorem oneConnection_run : ∃ os t,
    run (step initialCrc32Table) (listService [NetMessage.new]) oneConnection = some (os, t) := by
  obtain ⟨⟨os, t⟩, hrun⟩ : ∃ r,
      run (step initialCrc32Table) (listService [NetMessage.new]) oneConnection = some r :=
    Option.isSome_iff_exists.mp (by decide +kernel)
  exact ⟨os, t, hrun⟩

/-! ### When a run is defined -/

/-- The event of the listening socket, one read event and one write event for each accepted
    descriptor, which `net_events` leads to, and no others. -/
structure EventsAccounted (s : NetService lib) : Prop where
  listening : ∃! e, lib.find s.base e = some ⟨s.listenFd, .netEventAccept⟩
  entries : ∀ fd ∈ s.sockets, ∃ evRead evWrite,
    s.netEvents.byte fd.toNat = ⟨some evRead, some evWrite⟩ ∧
      (∀ e, lib.find s.base e = some ⟨fd, .netEventRead⟩ ↔ e = evRead) ∧
      ∀ e, lib.find s.base e = some ⟨fd, .netEventWrite⟩ ↔ e = evWrite
  others : ∀ e x, lib.find s.base e = some x →
    x = ⟨s.listenFd, .netEventAccept⟩ ∨ (x.cb ≠ .netEventAccept ∧ x.fd ∈ s.sockets)

/-- At the start there is the event of the listening socket. -/
theorem eventsAccounted_start (h : s.Starts mem heap) : s.EventsAccounted := by
  obtain ⟨-, -, hsockets, e₀, hfind⟩ := starts_spec h
  refine ⟨⟨e₀, ?_, fun e he => ?_⟩, ?_, fun e x hx => Or.inl (find_start h hx)⟩
  · dsimp only
    rw [hfind, Function.update_self]
  · by_contra hne
    dsimp only at he
    rw [hfind, Function.update_of_ne hne, lib.find_empty] at he
    cases he
  · rw [hsockets]
    exact fun _ hmem => absurd hmem List.not_mem_nil

section NewEvents

variable {b b' : lib.Base} {added : Bool} {evRead evWrite : EventPtr}

/-- Of the events with other descriptions, there are those that there were. -/
theorem NewEvents.find_other (h : NewEvents b fd added evRead evWrite b') {x : NetEvent}
    (hx : x.fd = fd → x.cb = .netEventAccept) (e : EventPtr) :
    lib.find b' e = some x ↔ lib.find b e = some x := by
  refine ⟨fun hfound => ?_, h.find_old⟩
  rcases h.find_inv hfound with hold | ⟨-, rfl⟩ | ⟨-, rfl⟩
  · exact hold
  · cases hx rfl
  · cases hx rfl

/-- A descriptor without events gets exactly one read event and one write event. -/
theorem NewEvents.find_iff (h : NewEvents b fd added evRead evWrite b')
    (hnone : ∀ e x, lib.find b e = some x → x.fd = fd → x.cb = .netEventAccept) :
    (∀ e, lib.find b' e = some ⟨fd, .netEventRead⟩ ↔ e = evRead) ∧
      ∀ e, lib.find b' e = some ⟨fd, .netEventWrite⟩ ↔ e = evWrite := by
  refine ⟨fun e => ⟨fun hfound => ?_, fun he => he ▸ h.find_read⟩,
    fun e => ⟨fun hfound => ?_, fun he => he ▸ h.find_write⟩⟩
  · rcases h.find_inv hfound with hold | ⟨he, -⟩ | ⟨-, heq⟩
    · cases hnone e _ hold rfl
    · exact he
    · cases heq
  · rcases h.find_inv hfound with hold | ⟨-, heq⟩ | ⟨he, -⟩
    · cases hnone e _ hold rfl
    · cases heq
    · exact he

end NewEvents

/-- An accept adds the two events of the new descriptor. -/
theorem EventsAccounted.afterAccept (h : s.EventsAccounted) (hinv : s.Inv) (hpos : 0 < fd)
    (hnew : fd ∉ s.sockets) {g : GameServer} {added : Bool} {evRead evWrite : EventPtr}
    {base : lib.Base} (hmade : NewEvents s.base fd added evRead evWrite base) :
    (s.afterAccept fd g evRead evWrite base).EventsAccounted := by
  -- the new descriptor had no event
  have hnone (e : EventPtr) (x : NetEvent) (hx : lib.find s.base e = some x) (hfd : x.fd = fd) :
      x.cb = .netEventAccept := by
    by_contra hcb
    exact hnew (hfd ▸ hinv.events e x hx hcb)
  refine ⟨?_, fun fd' hfd' => ?_, fun e x hx => ?_⟩
  · obtain ⟨e₀, he₀, huniq⟩ := h.listening
    refine ⟨e₀, (hmade.find_other (fun _ => rfl) e₀).2 he₀, fun e he => huniq e ?_⟩
    exact (hmade.find_other (fun _ => rfl) e).1 he
  · rcases List.mem_cons.1 hfd' with rfl | hold
    · exact ⟨evRead, evWrite, Block.put_byte_self _ _ _, hmade.find_iff hnone⟩
    · obtain ⟨evRead', evWrite', hbyte, hread, hwrite⟩ := h.entries fd' hold
      have hne : fd' ≠ fd := fun heq => hnew (heq ▸ hold)
      exact ⟨evRead', evWrite',
        (byte_afterAccept hinv hpos hnew g evRead evWrite base hold).trans hbyte,
        fun e => (hmade.find_other (fun heq => absurd heq hne) e).trans (hread e),
        fun e => (hmade.find_other (fun heq => absurd heq hne) e).trans (hwrite e)⟩
  · rcases hmade.find_inv hx with hold | ⟨-, rfl⟩ | ⟨-, rfl⟩
    · exact (h.others e x hold).imp_right fun hx => ⟨hx.1, List.mem_cons_of_mem _ hx.2⟩
    · exact Or.inr ⟨nofun, List.mem_cons_self⟩
    · exact Or.inr ⟨nofun, List.mem_cons_self⟩

/-- **One call** keeps the account, and every event there is. -/
theorem eventsAccounted_step {a : ServiceAct} {o : ServiceOut} (hinv : s.Inv)
    (hfrom : s.FromSystem a) (hstep : s.step table a = some (o, t)) (h : s.EventsAccounted) :
    t.EventsAccounted ∧ ∀ e x, lib.find s.base e = some x → lib.find t.base e = some x := by
  rcases step_registry hinv hfrom hstep with
    ⟨fd, rand, row, c, g, added, evRead, evWrite, base, hpos, hnew, -, hmade, rfl⟩ |
      ⟨hfind, htable, hsockets, hlisten, -⟩
  · exact ⟨h.afterAccept hinv hpos hnew hmade, fun _ _ => hmade.find_old⟩
  · refine ⟨⟨?_, ?_, ?_⟩, ?_⟩
    · rw [hfind, hlisten]
      exact h.listening
    · rw [hfind, htable, hsockets]
      exact h.entries
    · rw [hfind, hlisten, hsockets]
      exact h.others
    · rw [hfind]
      exact fun _ _ hx => hx

/-- No event is released in a run. -/
theorem find_run {e : EventPtr} {x : NetEvent} (hinv : s.Inv) (h : s.EventsAccounted)
    (hfrom : AllSteps (step table) FromSystem s acts)
    (hrun : run (step table) s acts = some (os, t)) (hx : lib.find s.base e = some x) :
    lib.find t.base e = some x := by
  have hkeep := run_inv
    (I := fun s : NetService lib => s.Inv ∧ s.EventsAccounted ∧ lib.find s.base e = some x)
    (fun _ _ _ _ hs hf hstep => ?_) ⟨hinv, h, hx⟩ hfrom hrun
  · exact hkeep.2.2
  · obtain ⟨hacc, hold⟩ := eventsAccounted_step hs.1 hf hstep hs.2.1
    exact ⟨inv_step hs.1 hf hstep, hacc, hold e x hs.2.2⟩

/-- The account is kept in every run. -/
theorem eventsAccounted_run (hstart : s.Starts mem heap)
    (hfrom : AllSteps (step table) FromSystem s acts)
    (hrun : run (step table) s acts = some (os, t)) : t.EventsAccounted :=
  (run_inv (I := fun s : NetService lib => s.Inv ∧ s.EventsAccounted)
    (fun _ _ _ _ hs hf hstep =>
      ⟨inv_step hs.1 hf hstep, (eventsAccounted_step hs.1 hf hstep hs.2).1⟩)
    ⟨inv_start hstart, eventsAccounted_start hstart⟩ hfrom hrun).2

/-- **Which events there are.**  In every state of every run, each descriptor that was accepted has
    exactly one read event and one write event, made when it was accepted; `net_events` leads to
    these; and no event that there was in an earlier state has been released. -/
theorem events_accounted (table : UInt8 → UInt32) (mem : SessionPtr → RawSession) (heap : Heap)
    (s t : NetService lib) (acts : List ServiceAct) (os : List ServiceOut)
    (hstart : s.Starts mem heap) (hfrom : AllSteps (step table) FromSystem s acts)
    (hrun : run (step table) s acts = some (os, t)) :
    t.EventsAccounted ∧ ∀ before after outs u, acts = before ++ after →
      run (step table) s before = some (outs, u) → u.EventsAccounted ∧
        ∀ e x, lib.find u.base e = some x → lib.find t.base e = some x := by
  refine ⟨eventsAccounted_run hstart hfrom hrun, ?_⟩
  rintro before after outs u rfl hbefore
  obtain ⟨hfrom₁, hfrom₂⟩ := hfrom.of_append hbefore
  obtain ⟨os₁, u', os₂, hrun₁, hrun₂, -⟩ := run_append_inv hrun
  cases hbefore.symm.trans hrun₁
  have hacc := eventsAccounted_run hstart hfrom₁ hbefore
  exact ⟨hacc, fun _ _ => find_run (inv_run hstart hfrom₁ hbefore) hacc hfrom₂ hrun₂⟩

/-- In the run with one connection, there are three events at the end. -/
theorem events_accounted_one : ∃ os t,
    run (step initialCrc32Table) (listService [NetMessage.new]) oneConnection = some (os, t) ∧
      t.EventsAccounted ∧ ∀ before after outs u, oneConnection = before ++ after →
        run (step initialCrc32Table) (listService [NetMessage.new]) before = some (outs, u) →
          u.EventsAccounted ∧ ∀ e x, (EventBase.library NetEvent).find u.base e = some x →
            (EventBase.library NetEvent).find t.base e = some x := by
  obtain ⟨os, t, hrun⟩ := oneConnection_run
  exact ⟨os, t, hrun, events_accounted _ _ _ _ _ _ _ (listService_starts _)
    oneConnection_fromSystem hrun⟩

/-! ### Which events may fire -/

/-- A connection keeps its session for the rest of the run. -/
theorem mapSessions_run {session : SessionPtr} (h : s.Inv)
    (hfrom : AllSteps (step table) FromSystem s acts)
    (hrun : run (step table) s acts = some (os, t))
    (hmap : s.server.manager.mapSessions fd = some session) :
    t.server.manager.mapSessions fd = some session :=
  (run_inv (I := fun s : NetService lib => s.Inv ∧ s.server.manager.mapSessions fd = some session)
    (fun _ _ _ _ hs hf hstep => ⟨inv_step hs.1 hf hstep, mapSessions_step hs.1 hf hstep hs.2⟩)
    ⟨h, hmap⟩ hfrom hrun).2

/-- The event that a call makes pending: an accept the read event of its descriptor, and a push the
    write event of the connection that its session belongs to, when `event_add` succeeds. -/
def Adds (s : NetService lib) (a : ServiceAct) (x : NetEvent) : Prop :=
  (x.cb = .netEventRead ∧ 0 < x.fd ∧
    ∃ memRead memWrite rand row, a = .accept x.fd memRead memWrite true rand row) ∨
  (x.cb = .netEventWrite ∧ ∃ session nm,
    a = .push session nm true ∧ s.server.manager.mapSessions x.fd = some session)

/-- **Which events may fire** after a call: those that might before, and the one that it has added.
    No call makes an event not pending. -/
theorem fires_step {a : ServiceAct} {o : ServiceOut} (h : s.Inv) (hfrom : s.FromSystem a)
    (hstep : s.step table a = some (o, t)) (x : NetEvent) :
    lib.Fires t.base x ↔ lib.Fires s.base x ∨ s.Adds a x := by
  cases a with
  | accept fd' memRead memWrite added rand row =>
    rcases step_accept h hfrom hstep with
      ⟨hneg, -, rfl⟩ | ⟨hpos, -, -, c, g, evRead, evWrite, base, -, hmade, -, rfl⟩
    · refine (or_iff_left ?_).symm
      rintro (⟨-, hpos, _, _, _, _, heq⟩ | ⟨-, _, _, heq, -⟩)
      · cases heq
        exact absurd hneg (not_lt.2 hpos.le)
      · cases heq
    · -- the read event is added if `event_add` succeeds, and the write event is not
      refine (hmade.fires x).trans (or_congr_right ⟨?_, ?_⟩)
      · rintro ⟨rfl, rfl⟩
        exact Or.inl ⟨rfl, hpos, memRead, memWrite, rand, row, rfl⟩
      · rintro (⟨hcb, -, _, _, _, _, heq⟩ | ⟨-, _, _, heq, -⟩)
        · cases x
          cases heq
          cases hcb
          exact ⟨rfl, rfl⟩
        · cases heq
  | readable fd' result =>
    have hnot : ¬ s.Adds (.readable fd' result) x := by
      rintro (⟨-, -, _, _, _, _, heq⟩ | ⟨-, _, _, heq, -⟩) <;> cases heq
    rcases step_readable h hfrom hstep with ⟨-, -, rfl⟩ | ⟨session, es, st, -, -, -, rfl⟩
    · exact (or_iff_left hnot).symm
    · exact (or_iff_left hnot).symm
  | writable fd' message result deleted =>
    have hnot : ¬ s.Adds (.writable fd' message result deleted) x := by
      rintro (⟨-, -, _, _, _, _, heq⟩ | ⟨-, _, _, heq, -⟩) <;> cases heq
    rcases step_writable h hfrom hstep with ⟨-, -, rfl⟩ | ⟨session, q, -, -, -, rfl⟩
    · exact (or_iff_left hnot).symm
    · exact (or_iff_left hnot).symm
  | push session nm added =>
    obtain ⟨-, base, -, rfl, hfires⟩ := step_push h hstep
    refine (hfires x).trans (or_congr_right ⟨?_, ?_⟩)
    · rintro ⟨rfl, hused, rfl⟩
      exact Or.inr ⟨rfl, session, nm, rfl, h.mapped_iff.2 ⟨hused, rfl⟩⟩
    · rintro (⟨-, -, _, _, _, _, heq⟩ | ⟨hcb, _, _, heq, hmap⟩)
      · cases heq
      · cases x
        cases heq
        cases hcb
        obtain ⟨hused, rfl⟩ := h.mapped_iff.1 hmap
        exact ⟨rfl, hused, rfl⟩
  | fetch session nm =>
    obtain ⟨-, rfl⟩ := step_fetch hstep
    refine (or_iff_left ?_).symm
    rintro (⟨-, -, _, _, _, _, heq⟩ | ⟨-, _, _, heq, -⟩) <;> cases heq

/-- The read and write events that may fire after a run are those that its steps have added. -/
theorem fires_run (hstart : s.Starts mem heap) (hfrom : AllSteps (step table) FromSystem s acts)
    (hrun : run (step table) s acts = some (os, t)) {cb : EventCb} (hcb : cb ≠ .netEventAccept)
    (fd : ℤ) : lib.Fires t.base ⟨fd, cb⟩ ↔ ∃ before a after outs u, acts = before ++ a :: after ∧
      run (step table) s before = some (outs, u) ∧ u.Adds a ⟨fd, cb⟩ := by
  have hnone : ¬ lib.Fires s.base ⟨fd, cb⟩ := by
    rintro ⟨e, hx, -⟩
    exact hcb (congrArg NetEvent.cb (find_start hstart hx))
  rw [run_history_iff (I := Inv) (P := fun s => lib.Fires s.base ⟨fd, cb⟩)
    (E := fun s a => s.Adds a ⟨fd, cb⟩)
    (fun _ _ _ _ hs hf hstep => ⟨fires_step hs hf hstep _, inv_step hs hf hstep⟩)
    (inv_start hstart) hfrom hrun, or_iff_right hnone]

/-- **Wake-ups reach their connection.**  In every state of every run, the write event of a
    descriptor is pending exactly when, since the session found under it was claimed, a message was
    pushed to that session by a call whose `event_add` succeeded; and this session is the one that
    `on_write` will find. -/
theorem writeFires_iff_pushed (table : UInt8 → UInt32) (mem : SessionPtr → RawSession)
    (heap : Heap) (s t : NetService lib) (acts : List ServiceAct) (os : List ServiceOut)
    (hstart : s.Starts mem heap) (hfrom : AllSteps (step table) FromSystem s acts)
    (hrun : run (step table) s acts = some (os, t)) (fd : ℤ) :
    lib.Fires t.base ⟨fd, .netEventWrite⟩ ↔
      ∃ before session nm after outs u, acts = before ++ .push session nm true :: after ∧
        run (step table) s before = some (outs, u) ∧
        u.server.manager.mapSessions fd = some session ∧
        t.server.manager.mapSessions fd = some session := by
  rw [fires_run hstart hfrom hrun (by decide)]
  constructor
  · rintro ⟨before, a, after, outs, u, rfl, hbefore, ⟨hcb, -⟩ | ⟨-, session, nm, rfl, hmap⟩⟩
    · cases hcb
    · obtain ⟨hfrom₁, hfrom₂⟩ := hfrom.of_append hbefore
      obtain ⟨os₁, u', os₂, hrun₁, hrun₂, -⟩ := run_append_inv hrun
      cases hbefore.symm.trans hrun₁
      exact ⟨before, session, nm, after, outs, u, rfl, hbefore, hmap,
        mapSessions_run (inv_run hstart hfrom₁ hbefore) hfrom₂ hrun₂ hmap⟩
  · rintro ⟨before, session, nm, after, outs, u, hsplit, hbefore, hmap, -⟩
    exact ⟨before, _, after, outs, u, hsplit, hbefore, Or.inr ⟨rfl, session, nm, rfl, hmap⟩⟩

/-- In the run with one connection, the second push makes the write event pending. -/
theorem writeFires_iff_pushed_one : ∃ os t,
    run (step initialCrc32Table) (listService [NetMessage.new]) oneConnection = some (os, t) ∧
      ((EventBase.library NetEvent).Fires t.base ⟨5, .netEventWrite⟩ ↔
        ∃ before session nm after outs u,
          oneConnection = before ++ .push session nm true :: after ∧
          run (step initialCrc32Table) (listService [NetMessage.new]) before = some (outs, u) ∧
          u.server.manager.mapSessions 5 = some session ∧
          t.server.manager.mapSessions 5 = some session) := by
  obtain ⟨os, t, hrun⟩ := oneConnection_run
  exact ⟨os, t, hrun, writeFires_iff_pushed _ _ _ _ _ _ _ (listService_starts _)
    oneConnection_fromSystem hrun 5⟩

/-! ### What is sent -/

/-- What a call of `on_write` did, if this was one: nothing was sent, and no event disarmed. -/
def Silent : ServiceOut → Prop
  | .wrote (some w) => w.sent = [] ∧ w.disarmed = false
  | _ => True

/-- **Nothing is ever sent.**  In every run, whatever is pushed, no call of `on_write` hands a byte to
    the socket, and none disarms its write event. -/
theorem never_sends (table : UInt8 → UInt32) (mem : SessionPtr → RawSession) (heap : Heap)
    (s t : NetService lib) (acts : List ServiceAct) (os : List ServiceOut)
    (hstart : s.Starts mem heap) (hfrom : AllSteps (step table) FromSystem s acts)
    (hrun : run (step table) s acts = some (os, t)) : ∀ o ∈ os, Silent o := by
  refine forall_outputs_of_inv (I := Inv) ?_ (inv_start hstart) hfrom hrun
  intro s a o t h hf hstep
  refine ⟨?_, inv_step h hf hstep⟩
  cases a with
  | accept fd memRead memWrite added rand row =>
    rcases step_accept h hf hstep with
      ⟨-, rfl, -⟩ | ⟨-, -, -, c, g, evRead, evWrite, base, -, -, rfl, -⟩ <;> trivial
  | readable fd result =>
    rcases step_readable h hf hstep with ⟨-, rfl, -⟩ | ⟨session, es, st, -, -, rfl, -⟩ <;> trivial
  | writable fd message result deleted =>
    rcases step_writable h hf hstep with ⟨-, rfl, -⟩ | ⟨session, q, -, -, rfl, -⟩
    · trivial
    · exact ⟨rfl, rfl⟩
  | push session nm added =>
    obtain ⟨rfl, -⟩ := step_push h hstep
    trivial
  | fetch session nm =>
    obtain ⟨rfl, -⟩ := step_fetch hstep
    trivial

/-- In the run with one connection, `on_write` is called with two messages waiting. -/
theorem never_sends_one : ∃ os t,
    run (step initialCrc32Table) (listService [NetMessage.new]) oneConnection = some (os, t) ∧
      ∀ o ∈ os, Silent o := by
  obtain ⟨os, t, hrun⟩ := oneConnection_run
  exact ⟨os, t, hrun, never_sends _ _ _ _ _ _ _ (listService_starts _) oneConnection_fromSystem
    hrun⟩

/-! ### Which connections are served -/

/-- The `k`-th connection has the `k`-th session, and those behind the last session have none. -/
structure ServedInOrder (s : NetService lib) : Prop where
  free : s.server.manager.vctSessions = (List.finRange MAX_SESSION).drop s.sockets.length
  served : ∀ (k : ℕ) (fd : ℤ), s.sockets.reverse[k]? = some fd →
    s.server.manager.mapSessions fd = (List.finRange MAX_SESSION)[k]?

/-- At the start all sessions are free, and there is no connection. -/
theorem servedInOrder_start (h : s.Starts mem heap) : s.ServedInOrder := by
  obtain ⟨hserver, -, hsockets, -⟩ := starts_spec h
  refine ⟨?_, ?_⟩
  · rw [hserver, hsockets]
    rfl
  · rw [hsockets]
    exact nofun

/-- A new connection gets the first session that is free, if there is one, and the others keep
    theirs. -/
theorem onAccept_inOrder (hinv : s.Inv) (hnew : fd ∉ s.sockets) {rand : UInt32} {row : ℕ → UInt8}
    {c : Option SessionPtr} {g : GameServer} (hon : s.server.onAccept fd rand row = some (c, g)) :
    g.manager.vctSessions = s.server.manager.vctSessions.tail ∧
      (∀ fd' ∈ s.sockets, g.manager.mapSessions fd' = s.server.manager.mapSessions fd') ∧
      g.manager.mapSessions fd = s.server.manager.vctSessions.head? := by
  have hunmapped := hinv.unmapped hnew
  rcases onAccept_cases hon with ⟨hvct, rfl⟩ | ⟨session, rest, hvct, hvct', hmap', -⟩
  · rw [hvct]
    exact ⟨rfl, fun _ _ => rfl, hunmapped⟩
  · rw [if_pos hunmapped] at hmap'
    rw [hvct]
    refine ⟨hvct', fun fd' hfd' => ?_, ?_⟩
    · have hne : fd' ≠ fd := fun heq => hnew (heq ▸ hfd')
      rw [hmap', Function.update_of_ne hne]
    · rw [hmap', Function.update_self]
      rfl

/-- **One call** keeps the order. -/
theorem servedInOrder_step {a : ServiceAct} {o : ServiceOut} (hinv : s.Inv)
    (hfrom : s.FromSystem a) (hstep : s.step table a = some (o, t)) (hserved : s.ServedInOrder) :
    t.ServedInOrder := by
  rcases step_registry hinv hfrom hstep with
    ⟨fd, rand, row, c, g, added, evRead, evWrite, base, -, hnew, hon, -, rfl⟩ |
      ⟨-, -, hsockets, -, hsame⟩
  · obtain ⟨hvct, hold, hnow⟩ := onAccept_inOrder hinv hnew hon
    refine ⟨?_, fun k fd' hk => ?_⟩
    · show g.manager.vctSessions = (List.finRange MAX_SESSION).drop (fd :: s.sockets).length
      rw [hvct, hserved.free, List.tail_drop, List.length_cons]
    · have hk' : (s.sockets.reverse ++ [fd])[k]? = some fd' := by
        rwa [← List.reverse_cons]
      show g.manager.mapSessions fd' = _
      rcases Nat.lt_or_ge k s.sockets.reverse.length with hlt | hge
      · -- an older connection keeps its session
        rw [List.getElem?_append_left hlt] at hk'
        rw [hold fd' (List.mem_reverse.1 (List.mem_of_getElem? hk'))]
        exact hserved.served k fd' hk'
      · rw [List.getElem?_append_right hge] at hk'
        have hzero : k - s.sockets.reverse.length = 0 :=
          Nat.lt_one_iff.1 (List.getElem?_eq_some_iff.1 hk').1
        rw [hzero] at hk'
        cases hk'
        have hk : k = s.sockets.length := by
          rw [List.length_reverse] at hge hzero
          omega
        rw [hnow, hserved.free, List.head?_drop, hk]
  · refine ⟨?_, ?_⟩
    · rw [hsame.vct, hsockets]
      exact hserved.free
    · rw [hsockets, hsame.map]
      exact hserved.served

/-- **Which connections are served.**  In every state of every run, the `k`-th connection accepted
    has the `k`-th session, for good; one behind the tenth has none, and a call for it does nothing.
    The read event of a descriptor is pending exactly when it was accepted by a call whose
    `event_add` succeeded, whether it has a session or not. -/
theorem served_in_order (table : UInt8 → UInt32) (mem : SessionPtr → RawSession) (heap : Heap)
    (s t : NetService lib) (acts : List ServiceAct) (os : List ServiceOut)
    (hstart : s.Starts mem heap) (hfrom : AllSteps (step table) FromSystem s acts)
    (hrun : run (step table) s acts = some (os, t)) :
    t.ServedInOrder ∧
      (∀ (k : ℕ) (fd : ℤ), t.sockets.reverse[k]? = some fd → MAX_SESSION ≤ k →
        ∀ result, t.step table (.readable fd result) = some (.read [], t)) ∧
      ∀ fd, lib.Fires t.base ⟨fd, .netEventRead⟩ ↔ 0 < fd ∧
        ∃ memRead memWrite rand row, .accept fd memRead memWrite true rand row ∈ acts := by
  obtain ⟨hinv, hserved⟩ := run_inv (I := fun s : NetService lib => s.Inv ∧ s.ServedInOrder)
    (fun _ _ _ _ hs hf hstep => ⟨inv_step hs.1 hf hstep, servedInOrder_step hs.1 hf hstep hs.2⟩)
    ⟨inv_start hstart, servedInOrder_start hstart⟩ hfrom hrun
  refine ⟨hserved, fun k fd hk hlast result => ?_, fun fd => ?_⟩
  · have hmem : fd ∈ t.sockets := List.mem_reverse.1 (List.mem_of_getElem? hk)
    have hnone : t.server.manager.mapSessions fd = none := by
      rw [hserved.served k fd hk, List.getElem?_eq_none (by rw [List.length_finRange]; exact hlast)]
    rw [step, netEventRead_of_none (hinv.registered fd hmem).1 hnone, Option.map_some]
  · rw [fires_run hstart hfrom hrun (by decide)]
    constructor
    · rintro ⟨before, a, after, outs, u, rfl, -,
        ⟨-, hpos, memRead, memWrite, rand, row, rfl⟩ | ⟨hcb, -⟩⟩
      · exact ⟨hpos, memRead, memWrite, rand, row,
          List.mem_append_right _ List.mem_cons_self⟩
      · cases hcb
    · rintro ⟨hpos, memRead, memWrite, rand, row, hmem⟩
      obtain ⟨before, after, rfl⟩ := List.append_of_mem hmem
      obtain ⟨outs, u, -, hbefore, -, -⟩ := run_append_inv hrun
      exact ⟨before, _, after, outs, u, rfl, hbefore,
        Or.inl ⟨rfl, hpos, memRead, memWrite, rand, row, rfl⟩⟩

/-- Twelve connections, of which the fourth and the last are not added to the pending events. -/
def twelveConnections : List ServiceAct :=
  (List.range 12).map fun k => .accept (k + 5) true true (k != 3 && k != 11) 1 fun _ => 1

/-- In the run with twelve connections, the last two have no session, and the read event of one of
    these is pending. -/
theorem served_in_order_twelve : ∃ os t,
    run (step initialCrc32Table) (listService []) twelveConnections = some (os, t) ∧
      t.sockets.reverse[10]? = some 15 ∧ t.ServedInOrder ∧
      (∀ (k : ℕ) (fd : ℤ), t.sockets.reverse[k]? = some fd → MAX_SESSION ≤ k →
        ∀ result, t.step initialCrc32Table (.readable fd result) = some (.read [], t)) ∧
      ∀ fd, (EventBase.library NetEvent).Fires t.base ⟨fd, .netEventRead⟩ ↔ 0 < fd ∧
        ∃ memRead memWrite rand row,
          .accept fd memRead memWrite true rand row ∈ twelveConnections := by
  obtain ⟨⟨os, t⟩, hrun, hlast⟩ : ∃ r,
      run (step initialCrc32Table) (listService []) twelveConnections = some r ∧
        decide (r.2.sockets.reverse[10]? = some 15) = true :=
    (Option.any_eq_true _ _).mp (by decide +kernel)
  exact ⟨os, t, hrun, of_decide_eq_true hlast, served_in_order _ _ _ _ _ _ _ (listService_starts _)
    (by decide +kernel) hrun⟩

end NetService

end LeoNet
