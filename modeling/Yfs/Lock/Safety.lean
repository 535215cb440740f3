import Yfs.Lock.Invariant

/-!
# Mutual exclusion, and no lost revoke or retry

Two consequences of the invariant that hold of every reachable state of the protocol, for every
lock id. `mutual_exclusion`: at most one thread, of all threads of all clients, is between the
return of `acquire` and its call of `release`. `no_lost_callback`: while the server waits for the
holder, a revoke is on its way to be honoured; while it waits for a client it has called, the call
is on its way to be answered.
-/

namespace Yfs.Lock

open Yfs.Lib

variable {s : LockState} {ph : ClientId → Phase}

/-! ## Mutual exclusion -/

/-- At most one client has the lock. -/
theorem ServerOk.tenure_unique {l : CacheLock} (h : ServerOk ph l) {c c' : ClientId}
    (hc : (ph c).tenure = true) (hc' : (ph c').tenure = true) : c = c' := by
  have hst := h.state
  -- FREE and ORDERED: nobody has it; LOCKED and LOCKED_AND_WAIT: only the recorded client has it
  cases hs : l.state <;> simp only [StateOk, hs] at hst
  · rw [hst.2 c] at hc
    cases hc
  · rw [(hst.2.1 c).mp hc, (hst.2.1 c').mp hc']
  · rw [(hst.2.1 c).mp hc, (hst.2.1 c').mp hc']
  · rw [hst.1 c] at hc
    cases hc

theorem Inv.holding_unique (hi : Inv s ph) {a b : Act} (ha : s.pc a = .holding)
    (hb : s.pc b = .holding) : a = b := by
  have ha' := hi.links.phase_own (a := a) (o := .held) (by simp [ha])
  have hb' := hi.links.phase_own (a := b) (o := .held) (by simp [hb])
  obtain ⟨r, hr⟩ := Phase.own_held ha'
  obtain ⟨r', hr'⟩ := Phase.own_held hb'
  -- different clients are kept apart by the server, threads of one client by its own record
  have hc : a.1 = b.1 := hi.server.tenure_unique (by simp [hr]) (by simp [hr'])
  rw [hc, hb'] at ha'
  cases ha'
  rfl

/-- No two threads hold the same lock, whatever the order of the steps. -/
theorem mutual_exclusion {w : LockId → LockState} (h : lockWorld.Reachable w) (lid : LockId)
    {a b : Act} (ha : (w lid).pc a = .holding) (hb : (w lid).pc b = .holding) : a = b := by
  obtain ⟨ph, hi⟩ := inv_reachable (h.proj lid)
  exact hi.holding_unique ha hb

/-- The lock was revoked from one client and given to another, while the first one still waits for
the reply to its release and has a second thread that wants the lock. -/
theorem mutual_exclusion_handed_over :
    ∃ w, lockWorld.Reachable w ∧ (w 7).pc ("c1", 0) = .releasing .reply ∧
      (w 7).pc ("c1", 1) = .waitingRelease ∧ (w 7).pc ("c2", 0) = .holding ∧
      ∀ b, (w 7).pc b = .holding → ("c2", 0) = b := by
  obtain ⟨w, hw, hrel, hwait, hp⟩ := System.exists_reachable (S := lockWorld)
    (s := fun _ => .initial)
    (p := fun w => (w 7).pc ("c1", 0) = .releasing .reply ∧ (w 7).pc ("c1", 1) = .waitingRelease ∧
      (w 7).pc ("c2", 0) = .holding)
    [(7, "c1", 0), (7, "c1", 0), (7, "c1", 0), (7, "c2", 0), (7, "c2", 0), (7, "c2", 0),
      (7, "c1", 0), (7, "c1", 0), (7, "c1", 0), (7, "c1", 0), (7, "c2", 0), (7, "c2", 0),
      (7, "c2", 0), (7, "c1", 1)] (fun _ => rfl) (by decide)
  exact ⟨w, hw, hrel, hwait, hp, fun b hb => mutual_exclusion hw 7 hp hb⟩

/-! ## No lost revoke or retry -/

/-- A release of `c` that has not reached the server: the activity is in `dorelease`, or its
release RPC is in flight. The activity is a thread of `c` in `release`, or a revoke handler
at `c`. -/
def GivingBack (s : LockState) (c : ClientId) : Prop :=
  ∃ p : RelPc, (p = .flush ∨ p = .call) ∧
    ((∃ t, s.pc (c, t) = .releasing p) ∨ ∃ a ret, s.pc a = .revoking c ret (.rel p))

/-- The server's wish to have the lock back from `c` is not lost: a revoke is about to be sent or
in flight, or `c` remembers it in its counter or its state, or `c` is giving the lock back. -/
def RevokeUnderWay (s : LockState) (c : ClientId) : Prop :=
  (∃ a ret, s.pc a = .revoking c ret .call) ∨
  (∃ l, s.clients c = some l ∧ 0 < l.revoke) ∨
  (∃ l, s.clients c = some l ∧ l.state = .releasing) ∨
  GivingBack s c

/-- The server's call to `c` to come for the lock is not lost: a retry is about to be sent or in
flight, or the retry flag of `c` is set, or the acquire RPC of `c` is in flight. -/
def RetryUnderWay (s : LockState) (c : ClientId) : Prop :=
  (∃ a, s.pc a = .releasing (.retry c) ∨ ∃ h ret, s.pc a = .revoking h ret (.rel (.retry c))) ∨
  (∃ l, s.clients c = some l ∧ l.retry = true) ∨
  ∃ t, s.pc (c, t) = .acquireCall

theorem Links.givingBack {clients : ClientId → Option ClientCacheLock} {pc : Act → Pc}
    {server : Option CacheLock} (h : Links clients pc ph) {a : Act} {c : ClientId}
    (hc : ph c = .flushing a ∨ ph c = .sending a) :
    GivingBack { clients, server, pc } c := by
  have hrel : (pc a).rel a = some (c, .flushing) ∨ (pc a).rel a = some (c, .sending) := by
    rcases hc with hc | hc
    · exact .inl ((h.rel a c _).mpr (by simp [hc]))
    · exact .inr ((h.rel a c _).mpr (by simp [hc]))
  cases hp : pc a with
  | releasing p =>
      refine ⟨p, ?_, .inl ⟨a.2, ?_⟩⟩
      · cases p <;> simp_all
      · have : a.1 = c := by rcases hrel with h | h <;> simp [hp] at h <;> exact h.1
        simpa [← this] using hp
  | revoking h ret p =>
      cases p with
      | call => simp [hp] at hrel
      | rel p =>
          refine ⟨p, ?_, .inr ⟨a, ret, ?_⟩⟩
          · cases p <;> simp_all
          · have : h = c := by rcases hrel with h | h <;> simp [hp] at h <;> exact h.1
            simpa [← this] using hp
  | _ => simp [hp] at hrel

/-- A revoke was sent in the tenure of `c` and the lock is not back: it is under way. -/
theorem Inv.revokeUnderWay (hi : Inv s ph) {c : ClientId} (hc : (ph c).revoked = true) :
    RevokeUnderWay s c := by
  have he := hi.links.entry c
  -- a revoke that was sent and not delivered is somebody's place in the code
  have hmsg : ∀ a, (ph c).rev = some (a, ()) → ∃ a ret, s.pc a = .revoking c ret .call := by
    intro a ha
    have := (hi.links.rev a c ()).mpr ha
    cases hp : s.pc a with
    | revoking h ret p =>
        cases p with
        | call => exact ⟨a, ret, by simp_all⟩
        | rel p => simp [hp] at this
    | _ => simp [hp] at this
  cases hph : ph c with
  | granted t r =>
      cases r with
      | none => simp [hph] at hc
      | msg a => exact .inl (hmsg a (by simp [hph]))
      | counted =>
          simp only [hph, EntryOk] at he
          obtain ⟨l, hl, -, hcount, -⟩ := he
          exact .inr (.inl ⟨l, hl, by simp [hcount]⟩)
      | marked => simp [hph, EntryOk] at he
  | held t r =>
      simp only [hph, EntryOk] at he
      obtain ⟨l, hl, hstate, hcount, -⟩ := he
      cases r with
      | none => simp [hph] at hc
      | msg a => exact .inl (hmsg a (by simp [hph]))
      | counted => exact .inr (.inl ⟨l, hl, by simp [hcount]⟩)
      | marked => exact .inr (.inr (.inl ⟨l, hl, by simp [hstate]⟩))
  | cached r =>
      cases r with
      | none => simp [hph] at hc
      | msg a => exact .inl (hmsg a (by simp [hph]))
      | _ => simp [hph, EntryOk] at he
  | flushing a => exact .inr (.inr (.inr (hi.links.givingBack (.inl hph))))
  | sending a => exact .inr (.inr (.inr (hi.links.givingBack (.inr hph))))
  | _ => simp [hph] at hc

/-- The client that was called is on its way. -/
theorem Inv.retryUnderWay (hi : Inv s ph) {c : ClientId} (hc : (ph c).called = true) :
    RetryUnderWay s c := by
  have he := hi.links.entry c
  cases hph : ph c with
  | requesting t b =>
      have := (hi.links.own (c, t) c .requesting).mpr (by simp [hph])
      refine .inr (.inr ⟨t, ?_⟩)
      cases hp : s.pc (c, t) <;> simp [hp] at this <;> first | rfl | (split at this <;> cases this)
  | denied t r =>
      cases r with
      | none => simp [hph] at hc
      | msg a =>
          have := (hi.links.ret a c ()).mpr (by simp [hph])
          refine .inl ⟨a, ?_⟩
          cases hp : s.pc a with
          | releasing p => cases p <;> simp_all
          | revoking h ret p =>
              cases p with
              | call => simp [hp] at this
              | rel p => cases p <;> simp_all
          | _ => simp [hp] at this
      | flagged =>
          simp only [hph, EntryOk] at he
          obtain ⟨l, hl, -, -, hflag⟩ := he
          exact .inr (.inl ⟨l, hl, by simp [hflag]⟩)
  | _ => simp [hph] at hc

/-- A waiting client is acquiring. -/
theorem Inv.queued_acquiring (hi : Inv s ph) {c : ClientId} (hc : (ph c).queued = true) :
    ∃ l, s.clients c = some l ∧ l.state = .acquiring := by
  have he := hi.links.entry c
  cases hph : ph c <;> simp_all only [EntryOk, Phase.queued, Bool.false_eq_true]
  · exact he.imp fun l h => ⟨h.1, h.2.1⟩
  · exact he.imp fun l h => ⟨h.1, h.2.1⟩

/-- In every reachable state and for every lock id: a server that waits for the holder has a revoke
under way to it; a server that waits for a client it has called has its call under way; and every
client in the queue is acquiring the lock. -/
theorem no_lost_callback {w : LockId → LockState} (h : lockWorld.Reachable w) (lid : LockId)
    {l : CacheLock} (hl : (w lid).server = some l) :
    (l.state = .lockedAndWait → RevokeUnderWay (w lid) l.client) ∧
    (l.state = .ordered → ∃ id ∈ l.queue, RetryUnderWay (w lid) id) ∧
    ∀ id ∈ l.queue, ∃ e, (w lid).clients id = some e ∧ e.state = .acquiring := by
  obtain ⟨ph, hi⟩ := inv_reachable (h.proj lid)
  have hserver := hi.server
  simp only [hl, Option.getD_some] at hserver
  have hst := hserver.state
  refine ⟨fun hs => ?_, fun hs => ?_, fun id hid => ?_⟩
  · simp only [StateOk, hs] at hst
    exact hi.revokeUnderWay hst.2.2.1
  · simp only [StateOk, hs] at hst
    obtain ⟨-, id, hid, hcalled⟩ := hst
    exact ⟨id, hid, hi.retryUnderWay ((hcalled id).mpr rfl)⟩
  · exact hi.queued_acquiring ((hserver.queue id).mp hid)

/-- While `c1` holds the lock, `c2` asks for it. -/
theorem no_lost_callback_contended :
    ∃ w l, lockWorld.Reachable w ∧ (w 7).server = some l ∧ l.state = .lockedAndWait ∧
      "c2" ∈ l.queue ∧ RevokeUnderWay (w 7) l.client := by
  obtain ⟨w, hw, hp⟩ := System.exists_reachable (S := lockWorld) (s := fun _ => .initial)
    (p := fun w => (w 7).server = some ⟨"c1", .lockedAndWait, {"c2"}⟩)
    [(7, "c1", 0), (7, "c1", 0), (7, "c2", 0), (7, "c2", 0)] (fun _ => rfl) (by decide)
  exact ⟨w, _, hw, hp, rfl, by decide, (no_lost_callback hw 7 hp).1 rfl⟩

end Yfs.Lock
