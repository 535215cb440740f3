import Yfs.Lib.Rank
import Yfs.Lock.Wakeups

/-!
# Every acquire returns

Let the calls that are under way go on, and let no thread call `acquire` anew. Then the caching lock
service comes to rest, whatever the order of the steps, and when it does every `acquire` has returned
with the lock and every lock has been released (`acquire_completes`).

There are two halves. As long as a thread is in a call, some thread is awake and can take a step
(`WakeInv.exists_drain`): a client that waits for the server waits for a call back that is under way,
and a thread that waits for another thread of its client is covered by `WakeInv`. And the steps lower
a rank: first the number of threads still in `acquire`; among steps that let none of them return, the
way the clients have to go in their cycle; among steps that do not move a client, the number of
threads that are not yet asleep.
-/

namespace Yfs.Lock

open Yfs.Lib Function

variable {s s' : WakeState} {ph ph' : ClientId → Phase} {a b : Act} {who : Option Act}
  {es : List Event} {x y : ClientId} {n : CondName}

/-- The thread has called `acquire`, which has not returned. -/
def Pc.inAcquire : Pc → Bool
  | .waiting | .waitingRelease | .waitingRetry | .acquireCall | .revoking .. | .acquireReply _ =>
      true
  | .idle | .holding | .releasing _ => false

/-- The calls under way go on: no thread calls `acquire`, and nobody wakes up without a reason. -/
def drainSystem : System WakeState (Act × Option Act) Event where
  init := wakeSystem.Reachable
  next s x := if s.lock.pc x.1 = .idle then none else s.run x.1 x.2

/-! ## Some thread can go on -/

/-- A thread that stands at no wait is awake. -/
theorem WakeState.awake_of_cond (h : s.lock.cond a = none) : s.asleep a = false := by
  simp [asleep, h]

/-- Some thread is in a call and not asleep. -/
def Busy (s : WakeState) : Prop := ∃ a, s.lock.pc a ≠ .idle ∧ s.asleep a = false

theorem Busy.of_place (h : s.lock.pc a ≠ .idle ∧ (s.lock.pc a).cond a = none) : Busy s :=
  ⟨a, h.1, WakeState.awake_of_cond h.2⟩

theorem Busy.of_own {o : Own} (h : (s.lock.pc a).own a = some (x, o)) (ho : o ≠ .denied) :
    Busy s := by
  apply Busy.of_place (a := a)
  cases hp : s.lock.pc a <;> simp_all [Pc.cond]

theorem Busy.of_rel {o : Rel} (h : (s.lock.pc a).rel a = some (x, o)) : Busy s := by
  apply Busy.of_place (a := a)
  cases hp : s.lock.pc a <;> simp_all [Pc.cond]

theorem Busy.of_rev {u : Unit} (h : (s.lock.pc a).rev = some (x, u)) : Busy s := by
  apply Busy.of_place (a := a)
  cases hp : s.lock.pc a <;> simp_all [Pc.cond]

theorem Busy.of_ret {u : Unit} (h : (s.lock.pc a).ret = some (x, u)) : Busy s := by
  apply Busy.of_place (a := a)
  cases hp : s.lock.pc a <;> simp_all [Pc.cond]

/-- A revoke that was sent keeps somebody busy until the lock is back. -/
theorem Inv.busy_of_revoked (hi : Inv s.lock ph) (h : (ph x).revoked = true) : Busy s := by
  have he := hi.links.entry x
  cases hph : ph x with
  | granted t r =>
      exact .of_own ((hi.links.own (x, t) x .granted).mpr (by simp [hph])) (by simp)
  | held t r => exact .of_own ((hi.links.own (x, t) x .held).mpr (by simp [hph])) (by simp)
  | cached r =>
      cases r with
      | msg a => exact .of_rev ((hi.links.rev a x ()).mpr (by simp [hph]))
      | none => simp [hph] at h
      | _ => simp [hph, EntryOk] at he
  | flushing a => exact .of_rel ((hi.links.rel a x .flushing).mpr (by simp [hph]))
  | sending a => exact .of_rel ((hi.links.rel a x .sending).mpr (by simp [hph]))
  | _ => simp [hph] at h

/-- A retry that was sent keeps somebody busy until the client has asked again. -/
theorem WakeInv.busy_of_called (hw : WakeInv s) (hi : Inv s.lock ph) (h : (ph x).called = true) :
    Busy s := by
  cases hph : ph x with
  | requesting t b =>
      exact .of_own ((hi.links.own (x, t) x .requesting).mpr (by simp [hph])) (by simp)
  | denied t r =>
      cases r with
      | none => simp [hph] at h
      | msg a => exact .of_ret ((hi.links.ret a x ()).mpr (by simp [hph]))
      | flagged =>
          have hown := (hi.links.own (x, t) x .denied).mpr (by simp [hph])
          have hne : s.lock.pc (x, t) ≠ .idle := by
            intro hp
            simp [hp] at hown
          refine ⟨(x, t), hne, ?_⟩
          -- its flag is set, so it does not sleep on `retry_cond`; and it stands at no other wait
          by_contra hsleep
          have hp : s.lock.cond (x, t) = some (x, .retry) := by
            unfold LockState.cond
            cases hp : s.lock.pc (x, t) <;>
              simp_all [Pc.cond, WakeState.asleep, LockState.cond]
          rw [Bool.not_eq_false, WakeState.asleep_iff hp] at hsleep
          have he := hi.links.entry x
          simp only [hph, EntryOk] at he
          obtain ⟨l, hl, -, -, hflag⟩ := he
          rw [hw.retry hi hl hsleep] at hflag
          simp at hflag
  | _ => simp [hph] at h

/-- A client in the server's queue waits for somebody who is busy. -/
theorem WakeInv.busy_of_queued (hw : WakeInv s) (hi : Inv s.lock ph) (h : (ph x).queued = true) :
    Busy s := by
  have hmem := (hi.server.queue x).mpr h
  have hst := hi.server.state
  unfold StateOk at hst
  split at hst
  · simp [hst.1] at hmem
  · simp [hst.1] at hmem
  · exact hi.busy_of_revoked hst.2.2.1
  · obtain ⟨-, w, -, hcalled⟩ := hst
    exact hw.busy_of_called hi ((hcalled w).mpr rfl)

/-- A client that has the lock in use, has asked for it or gives it back keeps somebody busy. -/
theorem WakeInv.busy_of_phase (hw : WakeInv s) (hi : Inv s.lock ph) (hidle : ph x ≠ .idle)
    (hcached : ∀ r, ph x ≠ .cached r) : Busy s := by
  cases hph : ph x with
  | idle => exact absurd hph hidle
  | cached r => exact absurd hph (hcached r)
  | requesting t b =>
      exact .of_own ((hi.links.own (x, t) x .requesting).mpr (by simp [hph])) (by simp)
  | denied t r => exact hw.busy_of_queued hi (by rw [hph]; rfl)
  | granted t r =>
      exact .of_own ((hi.links.own (x, t) x .granted).mpr (by simp [hph])) (by simp)
  | held t r => exact .of_own ((hi.links.own (x, t) x .held).mpr (by simp [hph])) (by simp)
  | flushing a => exact .of_rel ((hi.links.rel a x .flushing).mpr (by simp [hph]))
  | sending a => exact .of_rel ((hi.links.rel a x .sending).mpr (by simp [hph]))
  | settling a => exact .of_rel ((hi.links.rel a x .settling).mpr (by simp [hph]))

/-- The record of a client that has the lock cached, or nothing of it. -/
theorem EntryOk.quiet {P : Phase} {l : ClientCacheLock} (h : EntryOk P (some l))
    (hP : P = .idle ∨ ∃ r, P = .cached r) : l.state = .none ∨ l.state = .free := by
  rcases hP with rfl | ⟨r, rfl⟩
  · exact .inl (h l rfl).1
  · obtain ⟨_, ⟨⟩, hstate, -⟩ := h
    exact .inr hstate

/-- If a thread sleeps, somebody is busy. -/
theorem WakeInv.busy_of_asleep (hw : WakeInv s) (hi : Inv s.lock ph) (h : s.asleep a = true) :
    Busy s := by
  cases hc : s.lock.cond a with
  | none => simp [WakeState.asleep, hc] at h
  | some c =>
      obtain ⟨x, n⟩ := c
      have hmem := (WakeState.asleep_iff hc).mp h
      obtain ⟨l, hl⟩ := Option.isSome_iff_exists.mp (hw.entry a x n hc)
      by_cases hph : ph x = .idle ∨ ∃ r, ph x = .cached r
      · have he := hi.links.entry x
        rw [hl] at he
        have hquiet := he.quiet hph
        cases n with
        | wait =>
            -- the lock is there for the taking, so somebody was woken up for it
            have hcov := hw.covered x .wait
            rw [hl, permits, if_pos hquiet] at hcov
            obtain ⟨b, hb, hbmem⟩ := hcov.exists_awake Nat.one_pos ⟨a, hmem⟩
            refine ⟨b, ?_, ?_⟩
            · intro hp
              simp [LockState.cond, hp, Pc.cond] at hb
            · rw [← Bool.not_eq_true, WakeState.asleep_iff hb]
              exact hbmem
        | release =>
            obtain ⟨l', hl', hstate⟩ := hw.releasing x a hmem
            rw [hl] at hl'
            cases hl'
            simp [hstate] at hquiet
        | retry =>
            obtain ⟨hp, rfl⟩ := Pc.cond_eq_retry hc
            have hown := hi.links.phase_own (a := a) (o := .denied) (by simp [hp])
            rcases hph with hph | ⟨r, hph⟩ <;> simp [hph] at hown
      · rw [not_or, not_exists] at hph
        exact hw.busy_of_phase hi hph.1 hph.2

theorem WakeInv.busy (hw : WakeInv s) (hi : Inv s.lock ph) (h : s.lock.pc a ≠ .idle) : Busy s := by
  cases hsleep : s.asleep a with
  | false => exact ⟨a, h, hsleep⟩
  | true => exact hw.busy_of_asleep hi hsleep

/-- No section gets stuck. -/
theorem WakeInv.exists_next (hw : WakeInv s) (hi : Inv s.lock ph) (a : Act) :
    ∃ t es, Lock.next s.lock a = some (t, es) := by
  have hentry : ∀ n, s.lock.cond a = some (a.1, n) → ∃ l, s.lock.clients a.1 = some l :=
    fun n hc => Option.isSome_iff_exists.mp (hw.entry a a.1 n hc)
  suffices (Lock.next s.lock a).isSome = true by
    obtain ⟨r, hr⟩ := Option.isSome_iff_exists.mp this
    exact ⟨r.1, r.2, hr⟩
  cases hp : s.lock.pc a with
  | idle | acquireCall => simp [Lock.next, hp]
  | waiting =>
      obtain ⟨l, hl⟩ := hentry .wait (by rw [LockState.cond, hp]; rfl)
      simp [Lock.next, hp, hl]
  | waitingRelease =>
      obtain ⟨l, hl⟩ := hentry .release (by rw [LockState.cond, hp]; rfl)
      simp [Lock.next, hp, hl]
  | waitingRetry =>
      obtain ⟨l, hl⟩ := hentry .retry (by rw [LockState.cond, hp]; rfl)
      simp [Lock.next, hp, hl]
  | revoking h ret p =>
      cases p with
      | call =>
          obtain ⟨l, hl, -⟩ := inv_revoke hi hp
          simp [Lock.next, hp, hl]
      | rel p =>
          obtain ⟨t, q, es, hstep, -⟩ := inv_releaseStep wraps_revoke hi hp
          simp [Lock.next, hp, hstep]
  | acquireReply ret =>
      have hown := hi.links.phase_own (a := a) (o := ret.own) (by simp [hp])
      have he := hi.links.entry a.1
      obtain ⟨l, hl⟩ : ∃ l, s.lock.clients a.1 = some l := by
        cases hph : ph a.1 <;> simp only [hph, EntryOk] at he <;> simp [hph] at hown
        all_goals exact ⟨_, he.choose_spec.1⟩
      simp [Lock.next, hp, hl]
  | holding => cases hl : s.lock.clients a.1 <;> simp [Lock.next, hp, hl]
  | releasing p =>
      obtain ⟨t, q, es, hstep, -⟩ := inv_releaseStep wraps_release hi hp
      simp [Lock.next, hp, hstep]

theorem LockState.countP_wakes (s : LockState) (a : Act) :
    (s.wakes a).countP Wake.isSignal ≤ 1 := by
  have hrel : ∀ c (p : RelPc), (p.wakes s c).countP Wake.isSignal ≤ 1 := by
    intro c p
    cases p with
    | flush | call | reply => simp [RelPc.wakes, Wake.isSignal]
    | retry addr => by_cases h : (s.clients addr).isSome = true <;> simp [RelPc.wakes, h, Wake.isSignal]
  unfold LockState.wakes
  split
  · split
    · simp
    · split <;> simp [Wake.isSignal]
  · exact hrel _ _
  · exact hrel _ _
  · simp

/-- As long as a thread is in a call, some thread in a call can take a step. -/
theorem WakeInv.exists_drain (hw : WakeInv s) (hi : Inv s.lock ph) (h : s.lock.pc a ≠ .idle) :
    ∃ x r, drainSystem.next s x = some r := by
  obtain ⟨b, hb, hawake⟩ := hw.busy hi h
  obtain ⟨t, es, hn⟩ := hw.exists_next hi b
  obtain ⟨who, w, hstep⟩ := s.waits.exists_step (s.lock.countP_wakes b) b (t.cond b)
  refine ⟨(b, who), (⟨t, w⟩, es), ?_⟩
  show (if s.lock.pc b = .idle then none else s.run b who) = _
  rw [if_neg hb]
  exact WakeState.run_eq_some.mpr ⟨hawake, hn, hstep⟩

/-! ## What a step is good for -/

/-- What the place of thread `a` says about the clients. -/
def Pc.roles (a : Act) (p : Pc) :
    Option (ClientId × Own) × Option (ClientId × Rel) × Option (ClientId × Unit) ×
      Option (ClientId × Unit) :=
  (p.own a, p.rel a, p.rev, p.ret)

/-- What a step of a thread in a call is good for: its `acquire` returns, or what it does for the
clients changes, or it goes to sleep. -/
inductive Good (s s' : LockState) (a : Act) (es : List Event) : Prop where
  | returns : (s.pc a).inAcquire = true → (s'.pc a).inAcquire = false →
      es = [.acquired a.1 a.2] → Good s s' a es
  | moves : (s'.pc a).inAcquire = (s.pc a).inAcquire → (∀ y t, .acquired y t ∉ es) →
      (s'.pc a).roles a ≠ (s.pc a).roles a → Good s s' a es
  | sleeps : (s'.pc a).inAcquire = (s.pc a).inAcquire → (∀ y t, .acquired y t ∉ es) →
      (s'.cond a).isSome = true → s.wakes a = [] → Good s s' a es

theorem Pc.own_ne_requesting {p : Pc} (h : p ≠ .acquireCall) : p.own a ≠ some (x, .requesting) := by
  cases p <;> simp_all <;> split <;> simp

/-- A section of `acquire` is left. -/
theorem good_leaveAcquire {s : LockState} {r : ClientCacheLock × AcquireNext}
    (hin : (s.pc a).inAcquire = true) (hown : ∀ y, (s.pc a).own a ≠ some (y, .requesting))
    (hwakes : s.wakes a = []) :
    Good s (leaveAcquire s a r).1 a (leaveAcquire s a r).2 := by
  have hpc : (leaveAcquire s a r).1.pc a = r.2.pc := update_self ..
  have hcond : (leaveAcquire s a r).1.cond a = r.2.pc.cond a := LockState.cond_setPc
  cases hr : r.2 with
  | done => exact .returns hin (by rw [hpc, hr]; rfl) (by simp [leaveAcquire, hr])
  | call =>
      refine .moves (by rw [hpc, hr, hin]; rfl) (by simp [leaveAcquire, hr]) fun h => ?_
      rw [hpc, hr] at h
      exact hown a.1 (congrArg Prod.fst h).symm
  | wait | waitRelease | waitRetry =>
      exact .sleeps (by rw [hpc, hr, hin]; rfl) (by simp [leaveAcquire, hr])
        (by rw [hcond, hr]; rfl) hwakes

/-- A release goes on. -/
theorem releaseStep_roles {s t : LockState} {p : RelPc} {q : Option RelPc} {wrap : RelPc → Pc}
    {fin : Pc} (hw : Wraps a x wrap fin) (h : releaseStep s x p = some (t, q, es)) :
    (q.elim fin wrap).roles a ≠ (wrap p).roles a ∧ ∀ y t, .acquired y t ∉ es := by
  cases p with
  | flush =>
      cases h
      refine ⟨fun heq => ?_, by simp⟩
      have hrel : (wrap .call).rel a = (wrap .flush).rel a := congrArg (·.2.1) heq
      rw [hw.rel, hw.rel] at hrel
      simp at hrel
  | call =>
      simp only [releaseStep, Option.bind_eq_bind, Option.bind_eq_some_iff] at h
      obtain ⟨⟨server, inform⟩, -, h⟩ := h
      cases h
      refine ⟨fun heq => ?_, by simp⟩
      have hrel : (wrap (inform.elim .reply .retry)).rel a = (wrap .call).rel a :=
        congrArg (·.2.1) heq
      rw [hw.rel, hw.rel] at hrel
      cases inform <;> simp at hrel
  | retry addr =>
      cases h
      refine ⟨fun heq => ?_, by simp⟩
      have hret : (wrap .reply).ret = (wrap (.retry addr)).ret := congrArg (·.2.2.2) heq
      rw [hw.ret, hw.ret] at hret
      simp at hret
  | reply =>
      cases h
      refine ⟨fun heq => ?_, by simp⟩
      have hrel : fin.rel a = (wrap .reply).rel a := congrArg (·.2.1) heq
      rw [hw.rel, hw.fin_rel] at hrel
      cases hrel

theorem good_next {s s' : LockState} (hn : Lock.next s a = some (s', es)) (h : s.pc a ≠ .idle) :
    Good s s' a es := by
  unfold Lock.next at hn
  cases hp : s.pc a with
  | idle => exact absurd hp h
  | waiting | waitingRelease | waitingRetry | acquireReply =>
      simp only [hp, Option.bind_eq_bind, Option.bind_eq_some_iff] at hn
      obtain ⟨l, -, hn⟩ := hn
      cases hn
      exact good_leaveAcquire (by rw [hp]; rfl) (fun y => Pc.own_ne_requesting (by simp [hp]))
        (by simp [LockState.wakes, hp])
  | acquireCall =>
      simp only [hp, Option.some.injEq, Prod.mk.injEq] at hn
      obtain ⟨rfl, rfl⟩ := hn
      generalize serverAcquire s.server a.1 = r
      refine .moves ?_ (fun y t => ?_) fun heq => ?_
      · cases hr : r.2.2 <;> simp [hp, LockState.setPc, Pc.inAcquire]
      · cases hr : r.2.2 <;> by_cases hok : r.2.1 = .ok <;> simp [hok]
      · have hown := congrArg (·.1) heq
        cases hr : r.2.2 <;> by_cases hok : r.2.1 = .ok <;>
          simp [Pc.roles, hp, hr, hok, LockState.setPc] at hown
  | revoking h ret p =>
      cases p with
      | call =>
          -- the revoke is delivered
          have hmoves : ∀ (t : LockState) p, (t.setPc a p).pc a = p := fun _ _ => update_self ..
          have hdone : ∀ (t : LockState) p, p.inAcquire = true → p.rev = none →
              Good s (t.setPc a p) a [.revoked h] := by
            intro t p hin hrev
            refine .moves (by rw [hmoves, hp, hin]; rfl) (by simp) fun heq => ?_
            rw [hmoves, hp] at heq
            have hmsg : p.rev = some (h, ()) := congrArg (·.2.2.1) heq
            rw [hrev] at hmsg
            cases hmsg
          simp only [hp] at hn
          split at hn
          · cases hn
            exact hdone _ _ rfl rfl
          · rename_i l hl
            cases hn
            apply hdone <;> split <;> rfl
      | rel p =>
          simp only [hp, Option.bind_eq_bind, Option.bind_eq_some_iff] at hn
          obtain ⟨⟨t, q, es'⟩, ht, hn⟩ := hn
          cases hn
          obtain ⟨hroles, hes⟩ := releaseStep_roles wraps_revoke ht
          have hpc : (t.setPc a (q.elim (.acquireReply ret) fun p => .revoking h ret (.rel p))).pc a =
              q.elim (.acquireReply ret) fun p => .revoking h ret (.rel p) := update_self ..
          refine .moves ?_ hes (by rw [hpc, hp]; exact hroles)
          rw [hpc, hp]
          cases q <;> rfl
  | holding =>
      have hdone : ∀ (t : LockState) p, p.inAcquire = false → p.own a = none →
          Good s (t.setPc a p) a [.released a.1 a.2] := by
        intro t p hin hown
        have hpc : (t.setPc a p).pc a = p := update_self ..
        refine .moves (by rw [hpc, hp, hin]; rfl) (by simp) fun heq => ?_
        rw [hpc, hp] at heq
        have hheld : p.own a = some (a.1, .held) := congrArg (·.1) heq
        rw [hown] at hheld
        cases hheld
      simp only [hp] at hn
      split at hn
      · cases hn
        exact hdone _ _ rfl rfl
      · rename_i l hl
        cases hn
        apply hdone <;> split <;> rfl
  | releasing p =>
      simp only [hp, Option.bind_eq_bind, Option.bind_eq_some_iff] at hn
      obtain ⟨⟨t, q, es'⟩, ht, hn⟩ := hn
      cases hn
      obtain ⟨hroles, hes⟩ := releaseStep_roles wraps_release ht
      have hpc : (t.setPc a (q.elim .idle .releasing)).pc a = q.elim .idle .releasing :=
        update_self ..
      refine .moves ?_ hes (by rw [hpc, hp]; exact hroles)
      rw [hpc, hp]
      cases q <;> rfl

/-! ## The rank -/

def Rev.rank : Rev → Nat
  | .none => 2
  | .msg _ => 1
  | .counted | .marked => 0

/-- How far it is until a thread of the client gets the lock. -/
def Phase.rank : Phase → Nat
  | .held _ r => 20 + r.rank
  | .cached r => 17 + r.rank
  | .flushing _ => 16
  | .sending _ => 15
  | .settling _ => 14
  | .idle => 13
  | .requesting _ false => 12
  | .denied _ .none => 11
  | .denied _ (.msg _) => 10
  | .denied _ .flagged => 9
  | .requesting _ true => 8
  | .granted _ r => 4 + r.rank

theorem Phase.rank_le (P : Phase) : P.rank ≤ 22 := by
  cases P with
  | requesting t b => cases b <;> simp [Phase.rank]
  | denied t r => cases r <;> simp [Phase.rank]
  | granted t r | held t r => cases r <;> simp [Phase.rank, Rev.rank]
  | cached r => cases r <;> simp [Phase.rank, Rev.rank]
  | _ => simp [Phase.rank]

/-- The cycle goes down until a thread gets the lock. -/
theorem Move.rank_lt {P P' : Phase} (h : Move x P P' es) :
    (∃ t, .acquired x t ∈ es) ∨ P' = P ∨ P'.rank < P.rank := by
  cases h with
  | enter | hit => exact .inl ⟨_, List.mem_singleton_self _⟩
  | stay => exact .inr (.inl rfl)
  | @grant t b => cases b <;> simp [Phase.rank, Rev.rank]
  | @grantRevoke t b => cases b <;> simp [Phase.rank, Rev.rank]
  | @leave t r => cases r <;> simp_all [Phase.rank, Rev.rank]
  | giveUp hr => rcases hr with rfl | rfl <;> simp [Phase.rank, Rev.rank]
  | _ => simp [Phase.rank, Rev.rank]

/-- How far a thread is from being asleep. -/
def WakeState.unrest (s : WakeState) (a : Act) : Nat :=
  if s.asleep a then 0 else if (s.lock.cond a).isSome then 1 else 2

theorem WakeState.unrest_le (s : WakeState) (a : Act) : s.unrest a ≤ 2 := by
  unfold unrest
  split
  · omega
  · split <;> omega

/-- The threads in calls are among `A`, and the clients that have something of the lock among `C`. -/
structure Support (s : LockState) (ph : ClientId → Phase) (A : List Act) (C : List ClientId) :
    Prop where
  acts : ∀ a, s.pc a ≠ .idle → a ∈ A
  clients : ∀ x, ph x ≠ .idle → x ∈ C
  own : ∀ a ∈ A, a.1 ∈ C

variable {A : List Act} {C : List ClientId}

theorem Support.next {s s' : LockState} (h : Support s ph A C) (ha : a ∈ A)
    (hn : Lock.next s a = some (s', es)) (hi : Inv s' ph') (hm : Moves ph ph' es) :
    Support s' ph' A C := by
  have hacts : ∀ b, s'.pc b ≠ .idle → b ∈ A := by
    intro b hb
    by_cases hba : b = a
    · exact hba ▸ ha
    · rw [next_pc hn hba] at hb
      exact h.acts b hb
  refine ⟨hacts, fun x hx => ?_, h.own⟩
  by_cases hold : ph x = .idle
  · -- the client has just asked for the lock, with one of the threads
    have hmove := hm x
    rw [hold] at hmove
    obtain ⟨t, ht⟩ : ∃ t, ph' x = .requesting t false := by
      generalize ph' x = P, eventsOf x es = evs at hmove hx
      cases hmove with
      | stay => exact absurd rfl hx
      | request => exact ⟨_, rfl⟩
    have hown := (hi.links.own (x, t) x .requesting).mpr (by simp [ht])
    refine h.own (x, t) (hacts _ fun hidle => ?_)
    simp [hidle] at hown
  · exact h.clients x hold

theorem exists_support {s : LockState} (h : lockSystem.Reachable s) :
    ∃ ph A C, Inv s ph ∧ Support s ph A C := by
  refine h.invariant (I := fun s => ∃ ph A C, Inv s ph ∧ Support s ph A C) ?_ ?_
  · rintro s rfl
    exact ⟨_, [], [], inv_initial, fun a h => absurd rfl h, fun x h => absurd rfl h, nofun⟩
  · rintro s a s' es ⟨ph, A, C, hi, hsup⟩ hn
    obtain ⟨ph', hi', hm⟩ := inv_next hi hn
    have hmore : Support s ph (a :: A) (a.1 :: C) := by
      refine ⟨fun b hb => List.mem_cons_of_mem _ (hsup.acts b hb),
        fun x hx => List.mem_cons_of_mem _ (hsup.clients x hx), fun b hb => ?_⟩
      rcases List.mem_cons.mp hb with rfl | hb
      · exact List.mem_cons_self
      · exact List.mem_cons_of_mem _ (hsup.own b hb)
    exact ⟨ph', _, _, hi', hmore.next List.mem_cons_self hn hi' hm⟩

/-- The threads in `acquire` first, then the clients' ways, then the threads that are awake. -/
def WakeState.rank (s : WakeState) (ph : ClientId → Phase) (A : List Act) (C : List ClientId) :
    Nat :=
  pack (2 * A.length) (pack (22 * C.length)
    (total (fun a => if (s.lock.pc a).inAcquire then 1 else 0) A) (total (fun x => (ph x).rank) C))
    (total s.unrest A)

theorem roles_eq {s s' : LockState} (hi : Inv s ph) (hi' : Inv s' ph) (a : Act) :
    (s'.pc a).roles a = (s.pc a).roles a := by
  unfold Pc.roles
  rw [hi'.links.own.eq_of_linked hi.links.own a, hi'.links.rel.eq_of_linked hi.links.rel a,
    hi'.links.rev.eq_of_linked hi.links.rev a, hi'.links.ret.eq_of_linked hi.links.ret a]

/-- A step that lets no `acquire` return moves the clients down their cycle, or not at all. -/
theorem Moves.rank_lt (hm : Moves ph ph' es) (hno : ∀ y t, .acquired y t ∉ es) :
    ∀ x, ph' x = ph x ∨ (ph' x).rank < (ph x).rank := by
  intro x
  rcases (hm x).rank_lt with ⟨t, ht⟩ | h
  · exact absurd (List.mem_filter.mp ht).1 (hno x t)
  · exact h

theorem Moves.cycle_lt {s s' : LockState} (hm : Moves ph ph' es) (hno : ∀ y t, .acquired y t ∉ es)
    (hsup : Support s ph A C) (hsup' : Support s' ph' A C) (hne : ph' ≠ ph) :
    total (fun x => (ph' x).rank) C < total (fun x => (ph x).rank) C := by
  have hrank := hm.rank_lt hno
  obtain ⟨x, hx⟩ := Function.ne_iff.mp hne
  have hmem : x ∈ C := by
    by_cases hold : ph x = .idle
    · exact hsup'.clients x fun hnew => hx (hnew.trans hold.symm)
    · exact hsup.clients x hold
  refine total_lt (fun y _ => ?_) hmem ((hrank x).resolve_left hx)
  rcases hrank y with h | h
  · exact le_of_eq (congrArg Phase.rank h)
  · exact le_of_lt h

/-- Thread `a` goes to sleep, and nothing else changes. -/
theorem WakeState.unrest_lt (hawake : s.asleep a = false) (hn : Lock.next s.lock a = some (s'.lock, es))
    (hstep : s.waits.step a [] who (s'.lock.cond a) = some s'.waits)
    (hc : (s'.lock.cond a).isSome = true) :
    s'.unrest a < s.unrest a ∧ ∀ b ≠ a, s'.unrest b = s.unrest b := by
  obtain ⟨c, hc⟩ := Option.isSome_iff_exists.mp hc
  obtain ⟨w, hw, hwaits⟩ := WaitSets.step_eq_some.mp hstep
  cases hw
  rw [hc, Option.elim_some] at hwaits
  constructor
  · have hsleep : s'.asleep a = true := by
      rw [asleep_iff hc, ← hwaits, WaitSets.mem_sleep]
      exact .inr ⟨rfl, rfl⟩
    unfold unrest
    rw [hsleep, hawake]
    simp only [if_true, Bool.false_eq_true, if_false]
    split <;> omega
  · intro b hb
    have hcond : s'.lock.cond b = s.lock.cond b := by
      rw [cond_next hn, update_of_ne hb]
    have hasleep : s'.asleep b = s.asleep b := by
      unfold asleep
      rw [hcond, ← hwaits]
      cases s.lock.cond b with
      | none => rfl
      | some d => simp [WaitSets.mem_sleep, hb]
    unfold unrest
    rw [hasleep, hcond]

/-- Every step of a thread in a call lowers the rank. -/
theorem WakeState.rank_lt (hi : Inv s.lock ph) (hsup : Support s.lock ph A C)
    (h : s.run a who = some (s', es)) (ha : s.lock.pc a ≠ .idle) :
    ∃ ph', Inv s'.lock ph' ∧ Support s'.lock ph' A C ∧ s'.rank ph' A C < s.rank ph A C := by
  obtain ⟨hawake, hn, hstep⟩ := run_eq_some.mp h
  obtain ⟨ph', hi', hm⟩ := inv_next hi hn
  have hmem := hsup.acts a ha
  have hsup' := hsup.next hmem hn hi' hm
  have hrest := total_bound s'.unrest_le A
  have hcycle := total_bound (fun x => (ph' x).rank_le) C
  have hpc : ∀ b ≠ a, s'.lock.pc b = s.lock.pc b := fun b hb => next_pc hn hb
  refine ⟨ph', hi', hsup', ?_⟩
  -- the threads in `acquire`, unless the one that moves has returned from it
  have hsame : (s'.lock.pc a).inAcquire = (s.lock.pc a).inAcquire →
      total (fun b => if (s'.lock.pc b).inAcquire then 1 else 0) A ≤
        total (fun b => if (s.lock.pc b).inAcquire then 1 else 0) A := by
    intro hin
    refine total_le fun b _ => le_of_eq ?_
    by_cases hb : b = a
    · rw [hb, hin]
    · rw [hpc b hb]
  have hmoved : (s'.lock.pc a).inAcquire = (s.lock.pc a).inAcquire → (∀ y t, .acquired y t ∉ es) →
      ph' ≠ ph → s'.rank ph' A C < s.rank ph A C := fun hin hno hne =>
    pack_lt_of_fst hrest (pack_lt_of_snd (hsame hin) (hm.cycle_lt hno hsup hsup' hne))
  cases good_next hn ha with
  | returns hin hout _ =>
      refine pack_lt_of_fst hrest (pack_lt_of_fst hcycle (total_lt (fun b _ => ?_) hmem ?_))
      · by_cases hb : b = a
        · simp [hb, hout]
        · rw [hpc b hb]
      · simp [hin, hout]
  | moves hin hno hroles =>
      refine hmoved hin hno fun heq => ?_
      subst heq
      exact hroles (roles_eq hi hi' a)
  | sleeps hin hno hc hwakes =>
      by_cases hne : ph' = ph
      · subst hne
        rw [hwakes] at hstep
        obtain ⟨hlt, hother⟩ := unrest_lt hawake hn hstep hc
        refine pack_lt_of_snd ?_ (total_lt (fun b _ => ?_) hmem hlt)
        · exact Nat.add_le_add_right (Nat.mul_le_mul_right _ (hsame hin)) _
        · by_cases hb : b = a
          · exact hb ▸ le_of_lt hlt
          · exact le_of_eq (hother b hb)
      · exact hmoved hin hno hne

/-! ## The calls come to an end -/

theorem drain_eq_some {p : Act × Option Act} : drainSystem.next s p = some (s', es) ↔
    s.lock.pc p.1 ≠ .idle ∧ s.run p.1 p.2 = some (s', es) := by
  simp only [drainSystem, ite_eq_iff]
  grind

theorem drain_reachable {as : List (Act × Option Act)} (h : wakeSystem.Reachable s)
    (he : drainSystem.exec s as = some (s', es)) : wakeSystem.Reachable s' := by
  obtain ⟨τ, hτ⟩ : drainSystem.Reachable s' := ⟨_, (System.Run.start (S := drainSystem) h).exec he⟩
  refine System.Reachable.invariant (S := drainSystem) (I := wakeSystem.Reachable) (fun _ h => h) ?_
    ⟨τ, hτ⟩
  rintro s p s' es ⟨τ, hrun⟩ hn
  have hnext : wakeSystem.next s (.run p.1 p.2) = some (s', es) := (drain_eq_some.mp hn).2
  exact ⟨_, hrun.step hnext⟩

/-- A thread that was in `acquire` still is, or it has returned. -/
theorem acquired_or_inAcquire {as : List (Act × Option Act)}
    (he : drainSystem.exec s as = some (s', es)) (ha : (s.lock.pc a).inAcquire = true) :
    .acquired a.1 a.2 ∈ es ∨ (s'.lock.pc a).inAcquire = true := by
  induction as generalizing s es with
  | nil =>
      cases he
      exact .inr ha
  | cons p as ih =>
      obtain ⟨s₁, es₁, es₂, hp, has, rfl⟩ := System.exec_cons.mp he
      obtain ⟨hidle, hrun⟩ := drain_eq_some.mp hp
      obtain ⟨-, hn, -⟩ := WakeState.run_eq_some.mp hrun
      have hgo : .acquired a.1 a.2 ∈ es₁ ∨ (s₁.lock.pc a).inAcquire = true := by
        by_cases hpa : a = p.1
        · subst hpa
          cases good_next hn hidle with
          | returns _ _ hes => exact .inl (by simp [hes])
          | moves hin _ _ => exact .inr (hin.trans ha)
          | sleeps hin _ _ _ => exact .inr (hin.trans ha)
        · rw [next_pc hn hpa]
          exact .inr ha
      rcases hgo with hmem | hin
      · exact .inl (List.mem_append_left _ hmem)
      · exact (ih has hin).imp_left fun hmem => List.mem_append_right _ hmem

/-- From every reachable state: if no thread calls `acquire` any more, and none wakes up without a
reason, then there is a bound on the number of steps, whatever their order; and when no step is
possible any more, every `acquire` that was under way has returned with the lock, and all locks have
been released. -/
theorem acquire_completes (h : wakeSystem.Reachable s) :
    (∃ N, ∀ as s' es, drainSystem.exec s as = some (s', es) → as.length ≤ N) ∧
    ∀ as s' es, drainSystem.exec s as = some (s', es) → (∀ p, drainSystem.next s' p = none) →
      (∀ a, s'.lock.pc a = .idle) ∧
        ∀ a, (s.lock.pc a).inAcquire = true → .acquired a.1 a.2 ∈ es := by
  constructor
  · obtain ⟨τ, hτ⟩ := h
    obtain ⟨ph, A, C, hi, hsup⟩ := exists_support ⟨τ, run_lock hτ⟩
    refine ⟨s.rank ph A C, fun as s' es he => ?_⟩
    refine exec_length_le (S := drainSystem)
      (B := fun s n => ∃ ph, Inv s.lock ph ∧ Support s.lock ph A C ∧ s.rank ph A C = n) ?_
      ⟨ph, hi, hsup, rfl⟩ he
    rintro s n p s' es ⟨ph, hi, hsup, rfl⟩ hn
    obtain ⟨hidle, hrun⟩ := drain_eq_some.mp hn
    obtain ⟨ph', hi', hsup', hlt⟩ := WakeState.rank_lt hi hsup hrun hidle
    exact ⟨_, hlt, ph', hi', hsup', rfl⟩
  · intro as s' es he hstuck
    obtain ⟨hw, ph, hi⟩ := wakeInv_reachable (drain_reachable h he)
    have hidle : ∀ a, s'.lock.pc a = .idle := by
      intro a
      by_contra hne
      obtain ⟨p, r, hn⟩ := hw.exists_drain hi hne
      rw [hstuck p] at hn
      cases hn
    refine ⟨hidle, fun a ha => (acquired_or_inAcquire he ha).resolve_right fun hin => ?_⟩
    rw [hidle a] at hin
    cases hin

/-- `c2` has been denied the lock, and sleeps, when `c1` releases it. -/
theorem acquire_completes_contended :
    ∃ s, wakeSystem.Reachable s ∧ s.lock.pc ("c2", 0) = .waitingRetry ∧
      s.asleep ("c2", 0) = true ∧
      ∀ as s' es, drainSystem.exec s as = some (s', es) → (∀ p, drainSystem.next s' p = none) →
        .acquired "c2" 0 ∈ es := by
  obtain ⟨s, hs, hp, hsleep⟩ := System.exists_reachable (S := wakeSystem)
    (s := { lock := .initial, waits := .empty })
    (p := fun s => s.lock.pc ("c2", 0) = .waitingRetry ∧ s.asleep ("c2", 0) = true)
    [.run ("c1", 0) none, .run ("c1", 0) none, .run ("c1", 0) none, .run ("c2", 0) none,
      .run ("c2", 0) none, .run ("c2", 0) none, .run ("c2", 0) none] rfl (by decide)
  exact ⟨s, hs, hp, hsleep, fun as s' es he hstuck =>
    ((acquire_completes hs).2 as s' es he hstuck).2 ("c2", 0) (by rw [hp]; rfl)⟩

end Yfs.Lock
