import LeoNet.NetSession
import LeoNet.Lib.FreeList
import LeoNet.Lib.Machine

namespace LeoNet

open Machine FreeList

/-!
# Owners of sessions — free list and map

`claim_one_session` and `reclaim_one_session` move sessions between the free list and their owners,
`insert_session` and `remove_session` enter them in the map.  None of the four looks at what the
others keep: that a session has one owner is up to the callers.

* `oneOwner_step` — what one call may do;
* `oneOwner_iff_respects` — every session has at most one owner exactly as long as sessions that are
  reclaimed are neither free nor in the map, and free ones are not entered in it.
-/

/-- A call of the manager, with a session of the pool where it takes one. -/
inductive ManagerCall where
  | claim
  | reclaim (session : SessionPtr)
  | insert (socket : ℤ) (session : SessionPtr)
  | remove (socket : ℤ)

/-- The manager, and the sessions that have been claimed and not been reclaimed since. -/
structure Ownership where
  manager : SessionManager
  held : Set SessionPtr

namespace Ownership

/-- After `init_sessions`, nothing is claimed. -/
def start (mem : SessionPtr → RawSession) : Ownership := ⟨.initSessions mem, ∅⟩

/-- One call; it puts out the session that `claim_one_session` returned. -/
def step (s : Ownership) : ManagerCall → Option (Option SessionPtr × Ownership)
  | .claim =>
    let r := s.manager.claimOneSession
    some (r.1, ⟨r.2, s.held ∪ {session | session ∈ r.1}⟩)
  | .reclaim session => some (none, ⟨s.manager.reclaimOneSession session, s.held \ {session}⟩)
  | .insert socket session =>
    (s.manager.insertSession socket session).map fun r => (none, ⟨r.2, s.held⟩)
  | .remove socket => (s.manager.removeSession socket).map fun r => (none, ⟨r.2, s.held⟩)

/-- No session in the map is free. -/
def Unmapped (m : SessionManager) : Prop :=
  ∀ fd session, m.mapSessions fd = some session → session ∉ m.vctSessions

section Map

variable {m m' : SessionManager} {session : SessionPtr} {socket : ℤ} {flag : Bool}

/-- A session may be reclaimed if it is not in the map. -/
theorem unmapped_reclaim_iff (hm : Unmapped m) :
    Unmapped (m.reclaimOneSession session) ↔ ∀ fd, m.mapSessions fd ≠ some session := by
  constructor
  · intro hunmapped fd hfd
    exact hunmapped fd session hfd (List.mem_append_right _ (List.mem_singleton_self _))
  · intro hfree fd session' hfd hmem
    rcases List.mem_append.1 hmem with hin | hin
    · exact hm fd session' hfd hin
    · rw [List.mem_singleton.1 hin] at hfd
      exact hfree fd hfd

/-- A session that is entered under a new socket must not be free. -/
theorem unmapped_insert_iff (hm : Unmapped m)
    (h : m.insertSession socket session = some (flag, m')) :
    Unmapped m' ↔ (m.mapSessions socket = none → session ∉ m.vctSessions) := by
  obtain ⟨-, hvct, -, hmap⟩ := SessionManager.insertSession_spec h
  by_cases hnone : m.mapSessions socket = none
  · rw [if_pos hnone] at hmap
    constructor
    · intro hunmapped _
      rw [← hvct]
      exact hunmapped socket session (by rw [hmap, Function.update_self])
    · intro hnew fd session' hfd
      rw [hvct]
      rw [hmap] at hfd
      by_cases hsock : fd = socket
      · rw [hsock, Function.update_self] at hfd
        cases hfd
        exact hnew hnone
      · rw [Function.update_of_ne hsock] at hfd
        exact hm fd session' hfd
  · -- the socket is in the map already, and `insert_session` refuses
    rw [if_neg hnone] at hmap
    refine iff_of_true ?_ fun h => absurd h hnone
    intro fd session' hfd
    rw [hvct]
    rw [hmap] at hfd
    exact hm fd session' hfd

/-- A smaller map has no free session in it either. -/
theorem unmapped_remove (hm : Unmapped m) (h : m.removeSession socket = some (flag, m')) :
    Unmapped m' := by
  obtain ⟨-, hvct, hmap⟩ := SessionManager.removeSession_spec h
  intro fd session hfd
  rw [hvct]
  rw [hmap] at hfd
  by_cases hsock : fd = socket
  · rw [hsock, Function.update_self] at hfd
    cases hfd
  · rw [Function.update_of_ne hsock] at hfd
    exact hm fd session hfd

end Map

/-- The promise of the manager: no session is on the free list twice, or on it and in the map, and
    the session that `claim_one_session` returns is neither in the map nor claimed already. -/
structure OneOwner (s : Ownership) (_ : ManagerCall) (o : Option SessionPtr) (t : Ownership) :
    Prop where
  nodup : t.manager.vctSessions.Nodup
  unmapped : Unmapped t.manager
  claimed : ∀ session ∈ o, session ∉ s.held ∧ ∀ fd, s.manager.mapSessions fd ≠ some session

/-- What is left to the callers: a session that is reclaimed is neither free nor in the map, and one
    that is entered in the map is not free. -/
def Respects (s : Ownership) : ManagerCall → Prop
  | .claim => True
  | .reclaim session =>
    session ∉ s.manager.vctSessions ∧ ∀ fd, s.manager.mapSessions fd ≠ some session
  | .insert socket session => 0 < socket → s.manager.mapSessions socket = none →
    session ∉ s.manager.vctSessions
  | .remove _ => True

/-- Free list and owners, as a pool. -/
def pool (s : Ownership) : Pool SessionPtr := ⟨s.manager.vctSessions, s.held⟩

/-- The invariant: the pool is exclusive, and no session in the map is free. -/
structure Inv (s : Ownership) : Prop where
  pool : s.pool.Exclusive
  unmapped : Unmapped s.manager

section Steps

variable {s t : Ownership} {c : ManagerCall} {o : Option SessionPtr}

theorem start_inv (mem : SessionPtr → RawSession) : (start mem).Inv where
  pool := Pool.exclusive_of_nodup (List.nodup_finRange MAX_SESSION)
  unmapped := nofun

/-- A claim takes a session from the pool, and leaves the map alone. -/
theorem step_claim (h : s.step .claim = some (o, t)) :
    s.pool.take = (o, t.pool) ∧ t.manager.mapSessions = s.manager.mapSessions := by
  obtain ⟨⟨free, map, array⟩, held⟩ := s
  cases free with
  | nil =>
    cases h
    simp [pool, Pool.take, SessionManager.claimOneSession]
  | cons session rest =>
    cases h
    simp [pool, Pool.take, SessionManager.claimOneSession]

/-- A call that only changes the map keeps the promise exactly when no session in it is free. -/
theorem oneOwner_iff_unmapped (hs : s.Inv) (hpool : t.pool = s.pool) :
    (OneOwner s c none t ↔ Unmapped t.manager) ∧ (Unmapped t.manager → t.Inv) := by
  have hexclusive : t.pool.Exclusive := by
    rw [hpool]
    exact hs.pool
  exact ⟨⟨fun h => h.unmapped, fun h => ⟨hexclusive.nodup, h, nofun⟩⟩, fun h => ⟨hexclusive, h⟩⟩

/-- **One call** keeps the promise exactly when the caller does, and then the invariant. -/
theorem oneOwner_step (hs : s.Inv) (h : s.step c = some (o, t)) :
    (OneOwner s c o t ↔ s.Respects c) ∧ (s.Respects c → t.Inv) := by
  cases c with
  | claim =>
    -- what the pool hands out was free, hence neither held nor in the map
    obtain ⟨htake, hmap⟩ := step_claim h
    obtain ⟨hout, hpool, hfree⟩ := hs.pool.take htake
    have hunmapped : Unmapped t.manager := by
      intro fd session hfd hmem
      rw [hmap] at hfd
      exact hs.unmapped fd session hfd (hfree session hmem)
    refine ⟨iff_of_true ⟨hpool.nodup, hunmapped, ?_⟩ trivial, fun _ => ⟨hpool, hunmapped⟩⟩
    intro session hmem
    obtain ⟨hwas, hnot⟩ := hout session hmem
    exact ⟨hnot, fun fd hfd => hs.unmapped fd session hfd hwas⟩
  | reclaim session =>
    cases h
    have hpool := Pool.give_exclusive_iff (a := session) hs.pool
    have hmap : Unmapped (s.manager.reclaimOneSession session) ↔
        ∀ fd, s.manager.mapSessions fd ≠ some session := unmapped_reclaim_iff hs.unmapped
    have hinv (hr : s.Respects (.reclaim session)) :
        Inv ⟨s.manager.reclaimOneSession session, s.held \ {session}⟩ :=
      ⟨hpool.2 hr.1, hmap.2 hr.2⟩
    refine ⟨⟨fun hone => ⟨fun hmem => ?_, hmap.1 hone.unmapped⟩, fun hr => ?_⟩, hinv⟩
    · -- a free session that is given back is on the list twice
      have hnodup : (s.manager.vctSessions ++ [session]).Nodup := hone.nodup
      rw [List.nodup_append] at hnodup
      exact hnodup.2.2 session hmem session (List.mem_singleton_self _) rfl
    · exact ⟨(hinv hr).pool.nodup, (hinv hr).unmapped, nofun⟩
  | insert socket session =>
    rw [step, Option.map_eq_some_iff] at h
    obtain ⟨⟨flag, m⟩, hinsert, heq⟩ := h
    cases heq
    obtain ⟨hpos, hvct, -⟩ := SessionManager.insertSession_spec hinsert
    have hpool : pool ⟨m, s.held⟩ = s.pool := by rw [pool, pool, hvct]
    obtain ⟨hone, hinv⟩ := oneOwner_iff_unmapped (c := .insert socket session) hs hpool
    have hiff : Unmapped m ↔ s.Respects (.insert socket session) := by
      rw [unmapped_insert_iff hs.unmapped hinsert]
      exact ⟨fun hfree _ => hfree, fun hr => hr hpos⟩
    exact ⟨hone.trans hiff, fun hr => hinv (hiff.2 hr)⟩
  | remove socket =>
    rw [step, Option.map_eq_some_iff] at h
    obtain ⟨⟨flag, m⟩, hremove, heq⟩ := h
    cases heq
    obtain ⟨-, hvct, -⟩ := SessionManager.removeSession_spec hremove
    have hpool : pool ⟨m, s.held⟩ = s.pool := by rw [pool, pool, hvct]
    obtain ⟨hone, hinv⟩ := oneOwner_iff_unmapped (c := .remove socket) hs hpool
    have hunmapped : Unmapped m := unmapped_remove hs.unmapped hremove
    exact ⟨iff_of_true (hone.2 hunmapped) trivial, fun _ => hinv hunmapped⟩

/-- A call that is not defined asks nothing of its caller. -/
theorem respects_of_none (h : s.step c = none) : s.Respects c := by
  cases c with
  | claim => trivial
  | reclaim session => cases h
  | insert socket session =>
    intro hpos
    rw [step, Option.map_eq_none_iff, SessionManager.insertSession, if_pos hpos] at h
    split at h <;> cases h
  | remove socket => trivial

end Steps

end Ownership

/-- **Owners.**  In every sequence of calls after `init_sessions`, no session is ever on the free
    list twice or on it and in the map, and `claim_one_session` returns none that is in use,
    exactly as long as no session is reclaimed that is free or in the map, and none that is free
    is entered in the map. -/
theorem oneOwner_iff_respects (mem : SessionPtr → RawSession) (calls : List ManagerCall) :
    AllTransitions Ownership.step Ownership.OneOwner (.start mem) calls ↔
      AllSteps Ownership.step Ownership.Respects (.start mem) calls :=
  allTransitions_iff_allSteps_of_none (V := fun _ _ => True)
    (fun _ _ _ _ hs _ => Ownership.oneOwner_step hs) (fun _ _ _ => Ownership.respects_of_none)
    (Ownership.start_inv mem) (AllSteps.of_forall (fun _ _ => trivial) _ _)

/-- A session that is reclaimed twice. -/
theorem oneOwner_fails :
    ¬ ∀ (mem : SessionPtr → RawSession) (calls : List ManagerCall),
      AllTransitions Ownership.step Ownership.OneOwner (.start mem) calls := by
  intro h
  let first : SessionPtr := ⟨0, by decide⟩
  have hall := h (fun _ => .zeroed) [.claim, .reclaim first, .reclaim first]
  have hnodup := hall.mono (Q := fun _ _ _ t => t.manager.vctSessions.Nodup)
    fun _ _ _ _ hone => hone.nodup
  exact absurd hnodup (by decide)

end LeoNet
