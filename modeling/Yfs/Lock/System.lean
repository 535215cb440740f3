import Yfs.Lib.System
import Yfs.Lock.Client

/-!
# The caching lock protocol as a transition system

Any number of clients, each with any number of threads, and one server. A thread calls `acquire`,
holds the lock once the call has returned, calls `release`, and starts over. All RPCs block their
caller and are executed exactly once, so a thread that waits for one is in a single place of the
whole distributed program, however deep the calls are nested: its own `acquire`, the server's
handler for it, the revoke that handler sends, the release the revoke handler sends from there, the
retry of that release. `Pc` is that place. A step moves one thread from one section under a mutex to
the next; an RPC between two sections may take arbitrarily long, because the other threads may take
any number of steps in between, and messages overtake each other freely.

Every section reads and writes the entry of one lock id only. `lockSystem` is the protocol for one
lock id and `lockWorld` the interleaving of one copy per lock id. (In the interleaving a thread may
even be busy with several lock ids at once.)
-/

namespace Yfs.Lock

open Yfs.Lib

/-- A thread of a client. -/
abbrev Act := ClientId × ThreadId

/-- How far a release to the server has come, from the moment `release_flag` was set. -/
inductive RelPc where
  /-- Inside `lu->dorelease(lid)`. -/
  | flush
  /-- The release RPC is on its way to the server. -/
  | call
  /-- The server has the lock back and its retry to `addr` is about to be sent or in flight. -/
  | retry (addr : ClientId)
  /-- The release RPC is on its way back. -/
  | reply
  deriving DecidableEq, Repr

/-- How far the revoke that the server sends from `acquire` has come. -/
inductive RevPc where
  /-- The revoke is about to be sent or in flight. -/
  | call
  /-- The handler found the lock free and is giving it back. -/
  | rel (p : RelPc)
  deriving DecidableEq, Repr

/-- The place of a thread. -/
inductive Pc where
  | idle
  /-- Waits for `wait_cond`. -/
  | waiting
  /-- Waits for `release_cond`. -/
  | waitingRelease
  /-- Waits for `retry_cond`. -/
  | waitingRetry
  /-- The acquire RPC is on its way to the server. -/
  | acquireCall
  /-- The server's `acquire` has decided on `ret` and is calling revoke at `holder`. -/
  | revoking (holder : ClientId) (ret : Status) (p : RevPc)
  /-- The answer `ret` of the acquire RPC is on its way back. -/
  | acquireReply (ret : Status)
  /-- `acquire` has returned and `release` has not been called. -/
  | holding
  /-- `release` is giving the lock back to the server. -/
  | releasing (p : RelPc)
  deriving DecidableEq, Repr

/-- What an observer of one lock id sees. -/
inductive Event where
  /-- The server's `acquire` answers OK to `c`. -/
  | granted (c : ClientId)
  /-- The server sends a revoke to `c`. -/
  | sendRevoke (c : ClientId)
  /-- A revoke is delivered at `c`. -/
  | revoked (c : ClientId)
  /-- `acquire` returns OK to thread `t` of `c`. -/
  | acquired (c : ClientId) (t : ThreadId)
  /-- Thread `t` of `c` calls `release`. -/
  | released (c : ClientId) (t : ThreadId)
  /-- `c` sends a release RPC. -/
  | sendRelease (c : ClientId)
  /-- The server's `release` processes the release of `c`. -/
  | returned (c : ClientId)
  deriving DecidableEq, Repr

/-- All parties' view of one lock id. -/
structure LockState where
  clients : ClientId → Option ClientCacheLock
  server : Option CacheLock
  pc : Act → Pc

namespace LockState

/-- Nobody has asked for the lock yet. -/
def initial : LockState := { clients := fun _ => none, server := none, pc := fun _ => .idle }

def setClient (s : LockState) (c : ClientId) (l : ClientCacheLock) : LockState :=
  { s with clients := Function.update s.clients c (some l) }

def setPc (s : LockState) (a : Act) (p : Pc) : LockState :=
  { s with pc := Function.update s.pc a p }

/-- Apply a handler's section to the entry of `c`; without an entry the handler only complains. -/
def mapClient (s : LockState) (c : ClientId) (f : ClientCacheLock → ClientCacheLock) : LockState :=
  match s.clients c with
  | none => s
  | some l => s.setClient c (f l)

end LockState

/-- Where a thread in `acquire` is after a section. -/
def AcquireNext.pc : AcquireNext → Pc
  | .call => .acquireCall
  | .done => .holding
  | .wait => .waiting
  | .waitRelease => .waitingRelease
  | .waitRetry => .waitingRetry

/-- Thread `a` leaves a section of `acquire`. -/
def leaveAcquire (s : LockState) (a : Act) (r : ClientCacheLock × AcquireNext) :
    LockState × List Event :=
  ((s.setClient a.1 r.1).setPc a r.2.pc, if r.2 = .done then [.acquired a.1 a.2] else [])

/-- One step of a release of client `c`, shared by `release` and `revoke_handler`. The place is
`none` when the release is over. -/
def releaseStep (s : LockState) (c : ClientId) :
    RelPc → Option (LockState × Option RelPc × List Event)
  | .flush => some (s, some .call, [.sendRelease c])
  | .call => do
      let (server, inform) ← serverRelease s.server
      return ({ s with server }, some (inform.elim .reply .retry), [.returned c])
  | .retry addr => some (s.mapClient addr .retryHandler, some .reply, [])
  | .reply => some (s.mapClient c .released, none, [])

/-- Thread `a` takes its next step. -/
def next (s : LockState) (a : Act) : Option (LockState × List Event) :=
  match s.pc a with
  | .idle => some (leaveAcquire s a (((s.clients a.1).getD .new).acquire a.2))
  | .waiting => do
      let l ← s.clients a.1
      return leaveAcquire s a (l.wakeWait a.2)
  | .waitingRelease => do
      let l ← s.clients a.1
      return leaveAcquire s a (l.wakeRelease a.2)
  | .waitingRetry => do
      let l ← s.clients a.1
      return leaveAcquire s a l.wakeRetry
  | .acquireCall =>
      let r := serverAcquire s.server a.1
      some (({ s with server := some r.1 }).setPc a
          (r.2.2.elim (.acquireReply r.2.1) fun holder => .revoking holder r.2.1 .call),
        (if r.2.1 = .ok then [.granted a.1] else []) ++ r.2.2.elim [] fun holder =>
          [.sendRevoke holder])
  | .revoking holder ret .call =>
      match s.clients holder with
      | none => some (s.setPc a (.acquireReply ret), [.revoked holder])
      | some l =>
          let r := l.revokeHandler
          some ((s.setClient holder r.1).setPc a
            (if r.2 then .revoking holder ret (.rel .flush) else .acquireReply ret),
            [.revoked holder])
  | .revoking holder ret (.rel p) => do
      let (s, p, es) ← releaseStep s holder p
      return (s.setPc a (p.elim (.acquireReply ret) fun p => .revoking holder ret (.rel p)), es)
  | .acquireReply ret => do
      let l ← s.clients a.1
      return leaveAcquire s a (l.acquired a.2 ret)
  | .holding =>
      match s.clients a.1 with
      | none => some (s.setPc a .idle, [.released a.1 a.2])
      | some l =>
          let r := l.release
          some ((s.setClient a.1 r.1).setPc a (if r.2 then .releasing .flush else .idle),
            [.released a.1 a.2])
  | .releasing p => do
      let (s, p, es) ← releaseStep s a.1 p
      return (s.setPc a (p.elim .idle .releasing), es)

/-! ## A step moves one thread -/

section

variable {s s' : LockState} {a b : Act} {c : ClientId} {es : List Event}

theorem LockState.mapClient_pc {f : ClientCacheLock → ClientCacheLock} :
    (s.mapClient c f).pc = s.pc := by
  unfold LockState.mapClient
  split <;> rfl

theorem releaseStep_pc {p : RelPc} {p' : Option RelPc}
    (h : releaseStep s c p = some (s', p', es)) : s'.pc = s.pc := by
  cases p with
  | flush =>
      cases h
      rfl
  | call =>
      simp only [releaseStep, Option.bind_eq_bind, Option.bind_eq_some_iff] at h
      obtain ⟨_, -, h⟩ := h
      cases h
      rfl
  | retry | reply =>
      cases h
      exact LockState.mapClient_pc

theorem next_pc (h : next s a = some (s', es)) (hb : b ≠ a) : s'.pc b = s.pc b := by
  have hset : ∀ (t : LockState) p, t.pc = s.pc → (t.setPc a p).pc b = s.pc b := fun t p ht =>
    (Function.update_of_ne hb _ _).trans (congrFun ht b)
  unfold next at h
  split at h
  case h_1 | h_5 =>
    cases h
    exact hset _ _ rfl
  case h_6 | h_9 => split at h <;> cases h <;> exact hset _ _ rfl
  case h_7 | h_10 =>
    simp only [Option.bind_eq_bind, Option.bind_eq_some_iff] at h
    obtain ⟨⟨t, p, es'⟩, ht, h⟩ := h
    cases h
    exact hset t _ (releaseStep_pc ht)
  all_goals
    simp only [Option.bind_eq_bind, Option.bind_eq_some_iff] at h
    obtain ⟨l, -, h⟩ := h
    cases h
    exact hset _ _ rfl

end

/-- The protocol for one lock id. -/
def lockSystem : System LockState Act Event where
  init s := s = .initial
  next := next

/-- The protocol for all lock ids. -/
def lockWorld : System (LockId → LockState) (LockId × Act) (LockId × Event) :=
  .pi fun _ => lockSystem

end Yfs.Lock
