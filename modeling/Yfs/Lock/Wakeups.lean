import Yfs.Lib.Condition
import Yfs.Lock.Invariant

/-!
# The condition variables of the caching lock client

`lockSystem` lets a waiting thread wake up at any time. That is right for safety, but it hides lost
wake-ups: a client that never called `pthread_cond_signal` would do as well. Here each condition
variable has its wait set, and a thread that sleeps goes on only after it was signalled, or by a
spurious wake-up. `wakeSystem` is the protocol with the wait sets; its runs are runs of `lockSystem`
(`run_lock`).

A release signals `wait_cond` once for a lock that becomes FREE, and any thread may overtake the one
that was signalled. So the invariant counts (`WakeInv`): while the lock is there for the taking, some
thread that stands at `wait_cond` is awake if any thread sleeps there, and it will take the lock or
find that another one has. While the lock is RELEASING nobody needs to be awake: the thread that gives
it back, or the one that holds it and will, calls all of them at the end (`GivesBack`).
-/

namespace Yfs.Lock

open Yfs.Lib Function

/-! ## The wait sets -/

/-- The condition variables of a `ClientCacheLock`. -/
inductive CondName where
  | wait
  | release
  | retry
  deriving DecidableEq, Repr

/-- `wait_cond`, `release_cond` and `retry_cond` of each client. -/
abbrev Cond := ClientId × CondName

/-- The condition variable a thread waits for. -/
def Pc.cond (a : Act) : Pc → Option Cond
  | .waiting => some (a.1, .wait)
  | .waitingRelease => some (a.1, .release)
  | .waitingRetry => some (a.1, .retry)
  | _ => none

/-- The calls in a section of a release of client `c`. -/
def RelPc.wakes (s : LockState) (c : ClientId) : RelPc → List (Wake Cond)
  | .flush | .call => []
  | .retry addr => if (s.clients addr).isSome then [.signal (addr, .retry)] else []
  | .reply => [.broadcast (c, .wait), .broadcast (c, .release)]

namespace LockState

def cond (s : LockState) (a : Act) : Option Cond := (s.pc a).cond a

/-- The calls on condition variables in the section that thread `a` runs next. -/
def wakes (s : LockState) (a : Act) : List (Wake Cond) :=
  match s.pc a with
  | .holding =>
      match s.clients a.1 with
      | none => []
      -- LOCKED to FREE
      | some l => if l.revoke = 0 ∧ l.state = .locked then [.signal (a.1, .wait)] else []
  | .revoking holder _ (.rel p) => p.wakes s holder
  | .releasing p => p.wakes s a.1
  | _ => []

end LockState

structure WakeState where
  lock : LockState
  waits : WaitSets Cond Act

inductive WakeAction where
  /-- Thread `a` runs its next section; a signal in it wakes `who` up. -/
  | run (a : Act) (who : Option Act)
  /-- Thread `a` wakes up for no reason. -/
  | spurious (a : Act)
  deriving DecidableEq, Repr

namespace WakeState

/-- Thread `a` sleeps. -/
def asleep (s : WakeState) (a : Act) : Bool :=
  (s.lock.cond a).any fun c => a ∈ s.waits.sleeping c

def run (s : WakeState) (a : Act) (who : Option Act) : Option (WakeState × List Event) :=
  if s.asleep a then none
  else do
    let (lock, es) ← Lock.next s.lock a
    let waits ← s.waits.step a (s.lock.wakes a) who (lock.cond a)
    return ({ lock, waits }, es)

def spurious (s : WakeState) (a : Act) : Option (WakeState × List Event) := do
  let c ← s.lock.cond a
  if a ∈ s.waits.sleeping c then return ({ s with waits := s.waits.rouse a c }, []) else none

def next (s : WakeState) : WakeAction → Option (WakeState × List Event)
  | .run a who => s.run a who
  | .spurious a => s.spurious a

end WakeState

/-- The protocol for one lock id, with its condition variables. -/
def wakeSystem : System WakeState WakeAction Event where
  init s := s = { lock := .initial, waits := .empty }
  next := WakeState.next

variable {s s' : WakeState} {a b : Act} {who : Option Act} {es : List Event} {x : ClientId}
  {n : CondName}

theorem WakeState.run_eq_some : s.run a who = some (s', es) ↔ s.asleep a = false ∧
    Lock.next s.lock a = some (s'.lock, es) ∧
    s.waits.step a (s.lock.wakes a) who (s'.lock.cond a) = some s'.waits := by
  unfold run
  split
  · simp [*]
  · rename_i h
    rw [Bool.not_eq_true] at h
    simp only [Option.bind_eq_bind, Option.bind_eq_some_iff, Option.pure_def, Option.some.injEq,
      Prod.mk.injEq, Prod.exists, h, true_and]
    constructor
    · rintro ⟨lock, es', hn, waits, hw, rfl, rfl⟩
      exact ⟨hn, hw⟩
    · rintro ⟨hn, hw⟩
      exact ⟨s'.lock, es, hn, s'.waits, hw, rfl, rfl⟩

theorem WakeState.spurious_eq_some : s.spurious a = some (s', es) ↔
    ∃ c, s.lock.cond a = some c ∧ a ∈ s.waits.sleeping c ∧
      s' = { s with waits := s.waits.rouse a c } ∧ es = [] := by
  simp only [spurious, Option.bind_eq_bind, Option.bind_eq_some_iff, Option.pure_def,
    Option.ite_none_right_eq_some, Option.some.injEq, Prod.mk.injEq]
  grind

/-- Forgetting the wait sets, a step is a step of the protocol or none. -/
theorem run_lock {τ : List Event} (h : wakeSystem.Run τ s) : lockSystem.Run τ s.lock := by
  induction h with
  | start hs =>
      cases hs
      exact .start rfl
  | @step τ s act s' es _ hn ih =>
      cases act with
      | run a who =>
          obtain ⟨-, hn, -⟩ := WakeState.run_eq_some.mp hn
          exact ih.step hn
      | spurious a =>
          obtain ⟨c, -, -, rfl, rfl⟩ := WakeState.spurious_eq_some.mp hn
          simpa using ih

/-! ## What a section does for the waiting threads -/

/-- The lock is given back to the server. -/
def Releasing (e : Option ClientCacheLock) : Prop := ∃ l, e = some l ∧ l.state = .releasing

/-- What the threads wait for, as far as it is signalled: at `wait_cond` that the lock is there for the
taking, at `retry_cond` the retry. -/
def permits : Option ClientCacheLock → CondName → Nat
  | some l, .wait => if l.state = .none ∨ l.state = .free then 1 else 0
  | some l, .retry => if l.retry then 1 else 0
  | _, _ => 0

/-- A section in which thread `a` goes from `p` to `p'`, calls `ks`, and leaves the record `e` of
client `x` as `e'`. -/
structure Keeps (x : ClientId) (e e' : Option ClientCacheLock) (p p' : Option Cond)
    (ks : List (Wake Cond)) : Prop where
  covers : ∀ n, permits e' n = 0 ∨ (.broadcast (x, n) ∈ ks ∧ p' ≠ some (x, n)) ∨
    (permits e' n + (if p = some (x, n) then 1 else 0) ≤ permits e n + ks.count (.signal (x, n)) ∧
      p' ≠ some (x, n))
  releasing : Releasing e → Releasing e' ∨ .broadcast (x, .release) ∈ ks
  sleeps : p' = some (x, .release) → Releasing e'
  entry : e.isSome = true → e'.isSome = true
  stands : ∀ n, p' = some (x, n) → e'.isSome = true

section

variable {e : Option ClientCacheLock} {l l' : ClientCacheLock} {p p' : Option Cond}
  {ks : List (Wake Cond)}

/-- The record is not touched, and the thread has nothing to do with it. -/
theorem Keeps.other (hp : ∀ n, p ≠ some (x, n)) (hp' : ∀ n, p' ≠ some (x, n)) :
    Keeps x e e p p' ks where
  covers n := by
    refine .inr (.inr ⟨?_, hp' n⟩)
    rw [if_neg (hp n)]
    omega
  releasing h := .inl h
  sleeps h := absurd h (hp' _)
  entry h := h
  stands n h := absurd h (hp' n)

theorem AcquireNext.cond_eq_some {r : AcquireNext} : r.pc.cond a = some (x, n) ↔ x = a.1 ∧
    (r = .wait ∧ n = .wait ∨ r = .waitRelease ∧ n = .release ∨ r = .waitRetry ∧ n = .retry) := by
  cases r <;> cases n <;> simp [AcquireNext.pc, Pc.cond, eq_comm]

/-- A section of `acquire` ends with the lock taken or asked for, or the thread waits. -/
theorem keeps_leave {r : ClientCacheLock × AcquireNext} (hwait : permits (some r.1) .wait = 0)
    (hretry : permits (some r.1) .retry = 0 ∨ permits (some r.1) .retry ≤ permits e .retry ∧
      p ≠ some (a.1, .retry) ∧ r.2 ≠ .waitRetry)
    (hrel : Releasing e → r.1.state = .releasing)
    (hsleep : r.2 = .waitRelease → r.1.state = .releasing) :
    Keeps a.1 e (some r.1) p (r.2.pc.cond a) [] where
  covers n := by
    cases n with
    | wait => exact .inl hwait
    | release => exact .inl rfl
    | retry =>
        rcases hretry with h | ⟨hle, hp, hr⟩
        · exact .inl h
        · refine .inr (.inr ⟨by simpa [hp] using hle, ?_⟩)
          simp [AcquireNext.cond_eq_some, hr]
  releasing h := .inl ⟨r.1, rfl, hrel h⟩
  sleeps h := by
    obtain ⟨-, ⟨-, h⟩ | ⟨h, -⟩ | ⟨-, h⟩⟩ := AcquireNext.cond_eq_some.mp h
    · cases h
    · exact ⟨r.1, rfl, hsleep h⟩
    · cases h
  entry _ := rfl
  stands _ _ := rfl

/-- The `switch` of `acquire`. -/
theorem keeps_acquire (hp : p ≠ some (a.1, .retry)) :
    Keeps a.1 e (some ((e.getD .new).acquire a.2).1) p (((e.getD .new).acquire a.2).2.pc.cond a)
      [] := by
  apply keeps_leave
  case hwait =>
    unfold ClientCacheLock.acquire
    split <;> simp [permits, *]
  case hretry =>
    refine .inr ⟨?_, hp, ?_⟩
    · cases e <;> simp only [Option.getD, ClientCacheLock.acquire] <;> split <;>
        simp [permits, ClientCacheLock.new]
    · unfold ClientCacheLock.acquire
      split <;> simp
  case hrel =>
    rintro ⟨l, rfl, hl⟩
    simp [ClientCacheLock.acquire, hl]
  case hsleep =>
    unfold ClientCacheLock.acquire
    split <;> simp [*]

/-- A thread that stands at `wait_cond` looks again. -/
theorem keeps_wakeWait :
    Keeps a.1 (some l) (some (l.wakeWait a.2).1) (some (a.1, .wait)) ((l.wakeWait a.2).2.pc.cond a)
      [] := by
  unfold ClientCacheLock.wakeWait
  split
  · rename_i h
    apply keeps_leave
    · rcases h with h | h <;> simp [permits, h]
    · exact .inr ⟨le_rfl, by simp, by simp⟩
    · rintro ⟨_, ⟨⟩, hl⟩
      exact hl
    · simp
  · exact keeps_acquire (e := some l) (by simp)

/-- A thread that stands at `release_cond` looks again. -/
theorem keeps_wakeRelease :
    Keeps a.1 (some l) (some (l.wakeRelease a.2).1) (some (a.1, .release))
      ((l.wakeRelease a.2).2.pc.cond a) [] := by
  unfold ClientCacheLock.wakeRelease
  split
  · rename_i h
    apply keeps_leave
    · simp [permits, h]
    · exact .inr ⟨le_rfl, by simp, by simp⟩
    · exact fun _ => h
    · exact fun _ => h
  · exact keeps_acquire (e := some l) (by simp)

/-- A denied thread looks at the retry flag. -/
theorem keeps_wakeRetry (hl : l.state = .acquiring) :
    Keeps a.1 (some l) (some l.wakeRetry.1) p (l.wakeRetry.2.pc.cond a) [] := by
  unfold ClientCacheLock.wakeRetry
  split <;> apply keeps_leave <;> simp_all [permits, Releasing]

/-- The answer of the acquire RPC is here. -/
theorem keeps_acquired {ret : Status} (hl : l.state = .acquiring) :
    Keeps a.1 (some l) (some (l.acquired a.2 ret).1) none ((l.acquired a.2 ret).2.pc.cond a) [] := by
  unfold ClientCacheLock.acquired
  split
  · apply keeps_leave
    · simp [permits]
    · exact .inr ⟨le_rfl, by simp, by simp⟩
    · rintro ⟨_, ⟨⟩, h⟩
      rw [hl] at h
      cases h
    · simp
  · exact keeps_wakeRetry hl

/-- A section outside of the waits of `acquire`. -/
theorem Keeps.of_permits
    (hwait : permits (some l') .wait ≤ permits (some l) .wait + ks.count (.signal (x, .wait)) ∨
      .broadcast (x, .wait) ∈ ks)
    (hretry : permits (some l') .retry ≤ permits (some l) .retry + ks.count (.signal (x, .retry)))
    (hrel : l.state = .releasing → l'.state = .releasing ∨ .broadcast (x, .release) ∈ ks) :
    Keeps x (some l) (some l') none none ks where
  covers n := by
    cases n with
    | wait =>
        rcases hwait with h | h
        · exact .inr (.inr (by simpa using h))
        · exact .inr (.inl (by simpa using h))
    | release => exact .inl rfl
    | retry => exact .inr (.inr (by simpa using hretry))
  releasing h := by
    obtain ⟨_, ⟨⟩, h⟩ := h
    exact (hrel h).imp_left fun h => ⟨l', rfl, h⟩
  sleeps h := by cases h
  entry _ := rfl
  stands _ h := by cases h

/-- `release`: a lock that becomes FREE is signalled. -/
theorem keeps_release :
    Keeps x (some l) (some l.release.1) none none
      (if l.revoke = 0 ∧ l.state = .locked then [.signal (x, .wait)] else []) := by
  have hretry : l.release.1.retry = l.retry := by
    unfold ClientCacheLock.release
    grind
  have hrel : l.state = .releasing → l.release.1.state = .releasing := by
    unfold ClientCacheLock.release
    grind
  apply Keeps.of_permits
  · refine .inl ?_
    unfold ClientCacheLock.release
    cases hs : l.state <;> by_cases hr : l.revoke = 0 <;> simp [permits, hs, hr]
  · simp [permits, hretry]
  · exact fun h => .inl (hrel h)

theorem keeps_revokeHandler : Keeps x (some l) (some l.revokeHandler.1) none none [] := by
  apply Keeps.of_permits <;> unfold ClientCacheLock.revokeHandler <;> cases hs : l.state <;>
    simp [permits, hs]

theorem keeps_retryHandler :
    Keeps x (some l) (some l.retryHandler) none none [.signal (x, .retry)] := by
  apply Keeps.of_permits
  · exact .inl (Nat.le_add_right _ _)
  · simp [permits, ClientCacheLock.retryHandler]
  · exact fun h => .inl h

theorem keeps_released : Keeps x (some l) (some l.released) none none
    [.broadcast (x, .wait), .broadcast (x, .release)] := by
  apply Keeps.of_permits
  · exact .inr (by simp)
  · exact Nat.le_add_right _ _
  · exact fun _ => .inr (by simp)

/-- A section changes the record of client `y` only. -/
theorem Keeps.of_update {s s' : LockState} {y : ClientId} (hs : s'.clients = update s.clients y e)
    (hp : ∀ x n, p = some (x, n) → x = y) (hp' : ∀ x n, p' = some (x, n) → x = y)
    (hy : Keeps y (s.clients y) e p p' ks) (x : ClientId) :
    Keeps x (s.clients x) (s'.clients x) p p' ks := by
  rw [hs]
  by_cases hx : x = y
  · subst hx
    rwa [update_self]
  · rw [update_of_ne hx]
    exact .other (fun n h => hx (hp x n h)) (fun n h => hx (hp' x n h))

end

theorem Pc.cond_client {p : Pc} (h : p.cond a = some (x, n)) : x = a.1 := by
  cases p <;> simp_all [Pc.cond]

/-- A section of a release, inside an activity that waits for no condition variable. -/
theorem keeps_releaseStep {s s' : LockState} {p : RelPc} {q : Option RelPc} {y : ClientId}
    (h : releaseStep s y p = some (s', q, es)) (x : ClientId) :
    Keeps x (s.clients x) (s'.clients x) none none (p.wakes s y) := by
  cases p with
  | flush =>
      cases h
      exact .other nofun nofun
  | call =>
      simp only [releaseStep, Option.bind_eq_bind, Option.bind_eq_some_iff] at h
      obtain ⟨_, -, h⟩ := h
      cases h
      exact .other nofun nofun
  | retry addr =>
      cases h
      cases hl : s.clients addr with
      | none =>
          simp only [LockState.mapClient, hl]
          exact .other nofun nofun
      | some l =>
          simp only [LockState.mapClient, hl, RelPc.wakes, Option.isSome_some, if_true]
          refine Keeps.of_update (y := addr) rfl (by simp) (by simp) ?_ x
          rw [hl]
          exact keeps_retryHandler
  | reply =>
      cases h
      cases hl : s.clients y with
      | none =>
          simp only [LockState.mapClient, hl]
          exact .other nofun nofun
      | some l =>
          simp only [LockState.mapClient, hl, RelPc.wakes]
          refine Keeps.of_update (y := y) rfl (by simp) (by simp) ?_ x
          rw [hl]
          exact keeps_released

theorem LockState.cond_setPc {s : LockState} {p : Pc} : (s.setPc a p).cond a = p.cond a := by
  simp [LockState.cond, LockState.setPc]

/-- A section of `acquire`. -/
theorem keeps_leaveAcquire {s : LockState} {r : ClientCacheLock × AcquireNext}
    (h : Keeps a.1 (s.clients a.1) (some r.1) (s.cond a) (r.2.pc.cond a) []) (x : ClientId) :
    Keeps x (s.clients x) ((leaveAcquire s a r).1.clients x) (s.cond a)
      ((leaveAcquire s a r).1.cond a) [] := by
  have hcond : (leaveAcquire s a r).1.cond a = r.2.pc.cond a := LockState.cond_setPc
  rw [hcond]
  exact Keeps.of_update rfl (fun _ _ => Pc.cond_client) (fun _ _ => Pc.cond_client) h x

/-- The thread that waits for the answer of an acquire RPC finds the record ACQUIRING. -/
theorem Inv.acquiring {s : LockState} {ph : ClientId → Phase} {l : ClientCacheLock} {o : Own}
    (hi : Inv s ph) (hl : s.clients a.1 = some l) (hp : (s.pc a).own a = some (a.1, o))
    (ho : o ≠ .held) : l.state = .acquiring := by
  have hown := hi.links.phase_own hp
  have he := hi.links.entry a.1
  rw [hl] at he
  cases hph : ph a.1 <;> rw [hph] at hown he <;> simp_all [EntryOk]

/-- Every section does what the waiting threads need. -/
theorem keeps_next {s s' : LockState} {ph : ClientId → Phase} (hi : Inv s ph)
    (hn : Lock.next s a = some (s', es)) (x : ClientId) :
    Keeps x (s.clients x) (s'.clients x) (s.cond a) (s'.cond a) (s.wakes a) := by
  have hcond : s.cond a = (s.pc a).cond a := rfl
  unfold Lock.next at hn
  unfold LockState.wakes
  cases hp : s.pc a with
  | idle =>
      rw [hp] at hcond
      simp only [hp, Option.some.injEq] at hn
      obtain ⟨rfl, -⟩ := Prod.mk.inj hn
      refine keeps_leaveAcquire ?_ x
      rw [hcond]
      exact keeps_acquire (by simp [Pc.cond])
  | waiting =>
      rw [hp] at hcond
      simp only [hp, Option.bind_eq_bind, Option.bind_eq_some_iff] at hn
      obtain ⟨l, hl, hn⟩ := hn
      cases hn
      refine keeps_leaveAcquire ?_ x
      rw [hcond, hl]
      exact keeps_wakeWait
  | waitingRelease =>
      rw [hp] at hcond
      simp only [hp, Option.bind_eq_bind, Option.bind_eq_some_iff] at hn
      obtain ⟨l, hl, hn⟩ := hn
      cases hn
      refine keeps_leaveAcquire ?_ x
      rw [hcond, hl]
      exact keeps_wakeRelease
  | waitingRetry =>
      rw [hp] at hcond
      simp only [hp, Option.bind_eq_bind, Option.bind_eq_some_iff] at hn
      obtain ⟨l, hl, hn⟩ := hn
      cases hn
      refine keeps_leaveAcquire ?_ x
      rw [hl]
      exact keeps_wakeRetry (hi.acquiring hl (o := .denied) (by simp [hp]) (by simp))
  | acquireReply ret =>
      rw [hp] at hcond
      simp only [hp, Option.bind_eq_bind, Option.bind_eq_some_iff] at hn
      obtain ⟨l, hl, hn⟩ := hn
      cases hn
      refine keeps_leaveAcquire ?_ x
      rw [hcond, hl]
      refine keeps_acquired (hi.acquiring hl (o := ret.own) (by simp [hp]) ?_)
      unfold Status.own
      split <;> simp
  | acquireCall =>
      simp only [hp, Option.some.injEq] at hn
      obtain ⟨rfl, -⟩ := Prod.mk.inj hn
      rw [LockState.cond_setPc, hcond, hp]
      refine .other (by simp [Pc.cond]) fun n => ?_
      cases (serverAcquire s.server a.1).2.2 <;> simp [Pc.cond]
  | revoking h ret p =>
      rw [hcond, hp]
      cases p with
      | call =>
          simp only [hp] at hn
          split at hn
          · cases hn
            rw [LockState.cond_setPc]
            exact .other (by simp [Pc.cond]) (by simp [Pc.cond])
          · rename_i l hl
            cases hn
            rw [LockState.cond_setPc]
            have hnone : (if l.revokeHandler.2 = true then Pc.revoking h ret (.rel .flush)
                else .acquireReply ret).cond a = none := by
              split <;> rfl
            rw [hnone]
            refine Keeps.of_update rfl (by simp [Pc.cond]) (by simp) ?_ x
            rw [hl]
            exact keeps_revokeHandler
      | rel p =>
          simp only [hp, Option.bind_eq_bind, Option.bind_eq_some_iff] at hn
          obtain ⟨⟨t, q, es'⟩, ht, hn⟩ := hn
          cases hn
          rw [LockState.cond_setPc]
          have hnone : (q.elim (Pc.acquireReply ret) fun p => .revoking h ret (.rel p)).cond a =
              none := by
            cases q <;> rfl
          rw [hnone]
          exact keeps_releaseStep ht x
  | holding =>
      rw [hcond, hp]
      simp only [hp] at hn
      split at hn
      · rename_i hl
        cases hn
        rw [LockState.cond_setPc]
        exact .other (by simp [Pc.cond]) (by simp [Pc.cond])
      · rename_i l hl
        cases hn
        rw [LockState.cond_setPc]
        have hnone : (if l.release.2 = true then Pc.releasing .flush else .idle).cond a = none := by
          split <;> rfl
        rw [hnone]
        refine Keeps.of_update rfl (by simp [Pc.cond]) (by simp) ?_ x
        rw [hl]
        exact keeps_release
  | releasing p =>
      rw [hcond, hp]
      simp only [hp, Option.bind_eq_bind, Option.bind_eq_some_iff] at hn
      obtain ⟨⟨t, q, es'⟩, ht, hn⟩ := hn
      cases hn
      rw [LockState.cond_setPc]
      have hnone : (q.elim Pc.idle .releasing).cond a = none := by
        cases q <;> rfl
      rw [hnone]
      exact keeps_releaseStep ht x

/-! ## No wake-up is lost -/

/-- Whoever sleeps has a reason to. -/
structure WakeInv (s : WakeState) : Prop where
  placed : s.waits.Placed s.lock.cond
  covered : ∀ x n, s.waits.Covered s.lock.cond (x, n) (permits (s.lock.clients x) n)
  releasing : ∀ x t, t ∈ s.waits.sleeping (x, .release) → Releasing (s.lock.clients x)
  entry : ∀ t x n, s.lock.cond t = some (x, n) → (s.lock.clients x).isSome = true

theorem WakeState.asleep_iff {c : Cond} (hc : s.lock.cond a = some c) :
    s.asleep a = true ↔ a ∈ s.waits.sleeping c := by
  simp [asleep, hc]

/-- A thread that is not asleep is in no wait set. -/
theorem WakeInv.awake (hw : WakeInv s) (h : s.asleep a = false) (c : Cond) :
    a ∉ s.waits.sleeping c := by
  intro hmem
  rw [(WakeState.asleep_iff (hw.placed c a hmem)).mpr hmem] at h
  cases h

theorem cond_next {s s' : LockState} (hn : Lock.next s a = some (s', es)) :
    s'.cond = update s.cond a (s'.cond a) := by
  funext b
  by_cases hb : b = a
  · subst hb
    rw [update_self]
  · rw [update_of_ne hb, LockState.cond, LockState.cond, next_pc hn hb]

theorem WakeInv.run {ph : ClientId → Phase} (hw : WakeInv s) (hi : Inv s.lock ph)
    (h : s.run a who = some (s', es)) : WakeInv s' := by
  obtain ⟨hawake, hn, hstep⟩ := WakeState.run_eq_some.mp h
  have hkeeps := keeps_next hi hn
  have hcond := cond_next hn
  constructor
  case placed =>
    rw [hcond]
    exact hw.placed.step (hw.awake hawake) hstep
  case covered =>
    intro x n
    rw [hcond]
    exact (hw.covered x n).step hw.placed hstep ((hkeeps x).covers n)
  case releasing =>
    intro x t ht
    rcases WaitSets.mem_of_step hstep ht with ⟨ht, hno⟩ | ⟨-, hp⟩
    · exact ((hkeeps x).releasing (hw.releasing x t ht)).resolve_right hno
    · exact (hkeeps x).sleeps hp
  case entry =>
    intro t x n ht
    by_cases hta : t = a
    · subst hta
      exact (hkeeps x).stands n ht
    · rw [hcond, update_of_ne hta] at ht
      exact (hkeeps x).entry (hw.entry t x n ht)

theorem WakeInv.spurious (hw : WakeInv s) (h : s.spurious a = some (s', es)) : WakeInv s' := by
  obtain ⟨c, -, -, rfl, -⟩ := WakeState.spurious_eq_some.mp h
  exact ⟨hw.placed.rouse, fun x n => (hw.covered x n).rouse,
    fun x t ht => hw.releasing x t (WaitSets.mem_rouse.mp ht).1, hw.entry⟩

theorem wakeInv_initial : WakeInv { lock := .initial, waits := .empty } where
  placed c t h := by simp [WaitSets.empty] at h
  covered x n := .of_empty rfl
  releasing x t h := by simp [WaitSets.empty] at h
  entry t x n h := by simp [LockState.cond, LockState.initial, Pc.cond] at h

theorem wakeInv_reachable (h : wakeSystem.Reachable s) :
    WakeInv s ∧ ∃ ph, Inv s.lock ph := by
  obtain ⟨τ, hτ⟩ := h
  refine ⟨?_, inv_reachable ⟨τ, run_lock hτ⟩⟩
  induction hτ with
  | start hs =>
      cases hs
      exact wakeInv_initial
  | @step τ s act s' es hrun hn ih =>
      cases act with
      | run a who =>
          obtain ⟨ph, hi⟩ := inv_reachable ⟨τ, run_lock hrun⟩
          exact ih.run hi hn
      | spurious a => exact ih.spurious hn

theorem Pc.cond_eq_retry {p : Pc} (h : p.cond a = some (x, .retry)) :
    p = .waitingRetry ∧ x = a.1 := by
  cases p <;> simp_all [Pc.cond]

/-- Nobody sleeps on `retry_cond` when the retry flag is set: only one thread ever stands there. -/
theorem WakeInv.retry {ph : ClientId → Phase} (hw : WakeInv s) (hi : Inv s.lock ph)
    {l : ClientCacheLock} (hl : s.lock.clients x = some l)
    (ha : a ∈ s.waits.sleeping (x, .retry)) : l.retry = false := by
  by_contra hflag
  have hcov := hw.covered x .retry
  rw [hl, permits, if_pos (by simpa using hflag)] at hcov
  obtain ⟨b, hb, hmem⟩ := hcov.exists_awake Nat.one_pos ⟨a, ha⟩
  obtain ⟨hpa, hxa⟩ := Pc.cond_eq_retry (hw.placed _ _ ha)
  obtain ⟨hpb, hxb⟩ := Pc.cond_eq_retry hb
  have howna := hi.links.phase_own (a := a) (o := .denied) (by simp [hpa])
  have hownb := hi.links.phase_own (a := b) (o := .denied) (by simp [hpb])
  rw [← hxa] at howna
  rw [← hxb, howna] at hownb
  obtain ⟨rfl, -⟩ := Prod.mk.inj (Option.some.inj hownb)
  exact hmem ha

/-! ## Who wakes up the threads of a lock that is RELEASING -/

/-- Thread `b` gives the lock of client `x` back to the server, or holds it and has yet to. -/
def LockState.GivesBack (s : LockState) (x : ClientId) (b : Act) : Prop :=
  (∃ o, (s.pc b).rel b = some (x, o)) ∨ b.1 = x ∧ s.pc b = .holding

/-- A lock that is RELEASING is being given back. -/
theorem Inv.exists_givesBack {s : LockState} {ph : ClientId → Phase} {l : ClientCacheLock}
    (hi : Inv s ph) (hl : s.clients x = some l) (hrel : l.state = .releasing) :
    ∃ b, s.GivesBack x b := by
  have he := hi.links.entry x
  rw [hl] at he
  cases hph : ph x with
  | held t r =>
      refine ⟨(x, t), .inr ⟨rfl, ?_⟩⟩
      have hown := (hi.links.own (x, t) x .held).mpr (by simp [hph])
      cases hp : s.pc (x, t) <;> simp [hp] at hown
      · grind
      · grind
      · rfl
  | flushing b => exact ⟨b, .inl ⟨.flushing, (hi.links.rel b x .flushing).mpr (by simp [hph])⟩⟩
  | sending b => exact ⟨b, .inl ⟨.sending, (hi.links.rel b x .sending).mpr (by simp [hph])⟩⟩
  | settling b => exact ⟨b, .inl ⟨.settling, (hi.links.rel b x .settling).mpr (by simp [hph])⟩⟩
  | _ => simp [hph, EntryOk, hrel] at he

/-- A release goes on until its last section, which calls all who wait. -/
theorem releaseStep_goes_on {s s' : LockState} {p : RelPc} {q : Option RelPc}
    (h : releaseStep s x p = some (s', q, es)) :
    (∃ p', q = some p') ∨
      .broadcast (x, .wait) ∈ p.wakes s x ∧ .broadcast (x, .release) ∈ p.wakes s x := by
  cases p with
  | call =>
      simp only [releaseStep, Option.bind_eq_bind, Option.bind_eq_some_iff] at h
      obtain ⟨r, -, h⟩ := h
      cases h
      exact .inl ⟨_, rfl⟩
  | flush | retry =>
      cases h
      exact .inl ⟨_, rfl⟩
  | reply => exact .inr (by simp [RelPc.wakes])

/-- Who gives a lock back keeps at it until it has called all who wait. -/
theorem LockState.GivesBack.next {s s' : LockState} {l : ClientCacheLock} (hb : s.GivesBack x b)
    (hl : s.clients x = some l) (hrel : l.state = .releasing)
    (hn : Lock.next s b = some (s', es)) :
    s'.GivesBack x b ∨
      .broadcast (x, .wait) ∈ s.wakes b ∧ .broadcast (x, .release) ∈ s.wakes b := by
  unfold Lock.next at hn
  unfold LockState.wakes
  rcases hb with ⟨o, hb⟩ | ⟨rfl, hb⟩
  · cases hp : s.pc b with
    | revoking h ret p =>
        cases p with
        | call => simp [hp] at hb
        | rel p =>
            obtain ⟨rfl, -⟩ : h = x ∧ p.rel = o := by simpa [hp] using hb
            simp only [hp, Option.bind_eq_bind, Option.bind_eq_some_iff] at hn
            obtain ⟨⟨t, q, es'⟩, ht, hn⟩ := hn
            cases hn
            refine (releaseStep_goes_on ht).imp_left ?_
            rintro ⟨p', rfl⟩
            exact .inl ⟨p'.rel, by simp [LockState.setPc]⟩
    | releasing p =>
        obtain ⟨rfl, -⟩ : b.1 = x ∧ p.rel = o := by simpa [hp] using hb
        simp only [hp, Option.bind_eq_bind, Option.bind_eq_some_iff] at hn
        obtain ⟨⟨t, q, es'⟩, ht, hn⟩ := hn
        cases hn
        refine (releaseStep_goes_on ht).imp_left ?_
        rintro ⟨p', rfl⟩
        exact .inl ⟨p'.rel, by simp [LockState.setPc]⟩
    | _ => simp [hp] at hb
  · -- the holder finds the lock RELEASING, so its `release` sets `release_flag`
    have hflag : l.release.2 = true := by
      unfold ClientCacheLock.release
      grind
    simp only [hb, hl, hflag, if_true] at hn
    cases hn
    exact .inl (.inl ⟨.flushing, by simp [LockState.setPc]⟩)

/-- It waits for no condition variable. -/
theorem LockState.GivesBack.awake (hb : s.lock.GivesBack x b) : s.asleep b = false := by
  have hcond : s.lock.cond b = none := by
    unfold LockState.cond
    rcases hb with ⟨o, hb⟩ | ⟨-, hb⟩
    · cases hp : s.lock.pc b <;> simp [hp] at hb <;> rfl
    · rw [hb]
      rfl
  simp [WakeState.asleep, hcond]

/-- In every reachable state: if a thread sleeps on `wait_cond` while the lock is NONE or FREE at
its client, then another thread that stands there has been woken up for it; while the lock is
RELEASING some thread gives it back, or holds it and has yet to, and does not stop before it has
called all who wait; threads sleep on `release_cond` only while the lock is RELEASING, and on
`retry_cond` only as long as the retry has not come. -/
theorem no_lost_wakeup (h : wakeSystem.Reachable s) {l : ClientCacheLock}
    (hl : s.lock.clients x = some l) :
    (a ∈ s.waits.sleeping (x, .wait) → l.state = .none ∨ l.state = .free →
      ∃ t, s.lock.pc (x, t) = .waiting ∧ s.asleep (x, t) = false) ∧
    (l.state = .releasing → ∃ b, s.lock.GivesBack x b ∧ s.asleep b = false ∧
      ∀ s' es, Lock.next s.lock b = some (s', es) → s'.GivesBack x b ∨
        .broadcast (x, .wait) ∈ s.lock.wakes b ∧ .broadcast (x, .release) ∈ s.lock.wakes b) ∧
    (a ∈ s.waits.sleeping (x, .release) → l.state = .releasing) ∧
    (a ∈ s.waits.sleeping (x, .retry) → l.retry = false) := by
  obtain ⟨hw, ph, hi⟩ := wakeInv_reachable h
  refine ⟨fun ha hfree => ?_, fun hrel => ?_, fun ha => ?_, hw.retry hi hl⟩
  · have hcov := hw.covered x .wait
    rw [hl, permits, if_pos hfree] at hcov
    obtain ⟨b, hb, hmem⟩ := hcov.exists_awake Nat.one_pos ⟨a, ha⟩
    obtain rfl := Pc.cond_client hb
    refine ⟨b.2, ?_, ?_⟩
    · cases hp : s.lock.pc b <;> simp_all [LockState.cond, Pc.cond]
    · rw [← Bool.not_eq_true, WakeState.asleep_iff hb]
      exact hmem
  · obtain ⟨b, hb⟩ := hi.exists_givesBack hl hrel
    exact ⟨b, hb, hb.awake, fun s' es hn => hb.next hl hrel hn⟩
  · obtain ⟨l', hl', hstate⟩ := hw.releasing x a ha
    rw [hl] at hl'
    cases hl'
    exact hstate

/-- Two threads of `c1` sleep when the lock becomes free, and one of them is signalled. It takes the
lock, and when `c2` wants it the other one still sleeps. -/
theorem no_lost_wakeup_two_waiters :
    (∃ s, wakeSystem.Reachable s ∧ ("c1", 2) ∈ s.waits.sleeping ("c1", .wait) ∧
      ∃ t, s.lock.pc ("c1", t) = .waiting ∧ s.asleep ("c1", t) = false) ∧
    ∃ s, wakeSystem.Reachable s ∧ ("c1", 2) ∈ s.waits.sleeping ("c1", .wait) ∧
      ∃ b, s.lock.GivesBack "c1" b ∧ s.asleep b = false := by
  constructor
  · obtain ⟨s, hs, hl, hmem⟩ := System.exists_reachable (S := wakeSystem)
      (s := { lock := .initial, waits := .empty })
      (p := fun s => s.lock.clients "c1" = some ⟨.free, some 0, 0, false⟩ ∧
        ("c1", 2) ∈ s.waits.sleeping ("c1", .wait))
      [.run ("c1", 0) none, .run ("c1", 0) none, .run ("c1", 0) none, .run ("c1", 1) none,
        .run ("c1", 2) none, .run ("c1", 0) (some ("c1", 1))] rfl (by decide)
    exact ⟨s, hs, hmem, (no_lost_wakeup hs hl).1 hmem (.inr rfl)⟩
  · obtain ⟨s, hs, hl, hmem⟩ := System.exists_reachable (S := wakeSystem)
      (s := { lock := .initial, waits := .empty })
      (p := fun s => s.lock.clients "c1" = some ⟨.releasing, some 1, 0, false⟩ ∧
        ("c1", 2) ∈ s.waits.sleeping ("c1", .wait))
      [.run ("c1", 0) none, .run ("c1", 0) none, .run ("c1", 0) none, .run ("c1", 1) none,
        .run ("c1", 2) none, .run ("c1", 0) (some ("c1", 1)), .run ("c1", 1) none,
        .run ("c2", 0) none, .run ("c2", 0) none, .run ("c2", 0) none] rfl (by decide)
    obtain ⟨b, hb, hawake, -⟩ := (no_lost_wakeup (a := ("c1", 2)) hs hl).2.1 rfl
    exact ⟨s, hs, hmem, b, hb, hawake⟩

end Yfs.Lock
