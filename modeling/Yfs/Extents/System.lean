import Yfs.Extents.Client
import Yfs.Lock.System

/-!
# Extent caches under the caching locks

Each client pairs its extent cache with its lock cache: `ExtentLockRelease::dorelease` flushes the
extent before the lock goes back to the server. `cacheSystem` runs the lock protocol for one id and
the extent with that id side by side. A thread that holds the lock calls any operations on the
extent except `remove`; an activity that gives the lock back calls `flush` and goes on when it has
returned. An RPC to the extent server is executed some time after it is sent and answered some time
after that, and the other threads go on meanwhile.
-/

namespace Yfs.Lock

/-- The client whose cached extent a place in the code may read and write. -/
def Pc.site (a : Act) : Pc → Option ClientId
  | .holding | .releasing .flush => some a.1
  | .revoking h _ (.rel .flush) => some h
  | _ => none

end Yfs.Lock

namespace Yfs.Extents

open Yfs.Lib Yfs.Lock
open Yfs.Rpc (Bytes)

/-- The operation that waits. -/
@[simp] def Pending.op : Pending → Op
  | .get _ => .get
  | .getattr => .getattr
  | .put _ | .remove => .flush

/-- How far an activity is in an operation on the extent. -/
inductive OpPc where
  | idle
  /-- The RPC is on its way to the extent server. -/
  | calling (p : Pending)
  /-- The reply is on its way back. -/
  | replying (p : Pending) (r : Answer)
  /-- `dorelease` has returned. -/
  | flushed
  deriving DecidableEq, Repr

/-- What an observer of one id sees. -/
inductive CacheEvent where
  | lock (e : Lock.Event)
  /-- Thread `a` puts `buf`. -/
  | put (a : Act) (buf : Bytes)
  /-- `get` returns OK and `buf` to thread `a`. -/
  | got (a : Act) (buf : Bytes)
  deriving DecidableEq, Repr

/-- The lock and the extent with one id. -/
structure CacheState where
  lock : LockState
  cache : ClientId → Option ExtentCache
  server : Option Extent
  op : Act → OpPc

inductive CacheAction where
  /-- The lock protocol goes on. -/
  | lock (a : Act)
  | start (a : Act) (op : Op) (now : UInt32)
  | serve (a : Act) (now : UInt32)
  | finish (a : Act) (now : UInt32)
  deriving DecidableEq, Repr

/-- Where an activity is after an operation: a thread is free to call the next one, a release has
flushed. -/
def opDone : Pc → OpPc
  | .releasing .flush | .revoking _ _ (.rel .flush) => .flushed
  | _ => .idle

/-- A holder calls what it likes except `remove`; `dorelease` calls `flush`. -/
def Op.allowed (p : Pc) (op : Op) : Bool :=
  if p = .holding then op ≠ .remove else op = .flush

/-- What an observer sees of an operation that returns `r`. -/
def Op.events (a : Act) (r : Answer) : Op → List CacheEvent
  | .get => if r.ret = .ok then [.got a r.buf] else []
  | .put buf => [.put a buf]
  | _ => []

namespace CacheState

def copies (s : CacheState) (c : ClientId) : Copies := ⟨s.cache c, s.server⟩

/-- Activity `a` leaves the entry of client `c` as `e` and goes on at `o`. -/
def set (s : CacheState) (c : ClientId) (e : Option ExtentCache) (a : Act) (o : OpPc) :
    CacheState :=
  { s with cache := Function.update s.cache c e, op := Function.update s.op a o }

def next (s : CacheState) : CacheAction → Option (CacheState × List CacheEvent)
  | .lock a =>
      if s.op a = opDone (s.lock.pc a) then do
        let (lock, es) ← Lock.next s.lock a
        return ({ s with lock, op := Function.update s.op a .idle }, es.map .lock)
      else none
  | .start a op now => do
      let c ← (s.lock.pc a).site a
      if s.op a = .idle ∧ op.allowed (s.lock.pc a) = true then
        match op.start (s.cache c) now with
        | .done e r => return (s.set c e a (opDone (s.lock.pc a)), op.events a r)
        | .call e p => return (s.set c e a (.calling p), [])
      else none
  | .serve a now =>
      match s.op a with
      | .calling p =>
          let (r, server) := p.serve s.server now
          some ({ s with server, op := Function.update s.op a (.replying p r) }, [])
      | _ => none
  | .finish a now => do
      let c ← (s.lock.pc a).site a
      match s.op a with
      | .replying p r =>
          let (e, r) := p.finish (s.cache c) r now
          return (s.set c e a (opDone (s.lock.pc a)), p.op.events a r)
      | _ => none

end CacheState

/-- One lock and its extent, which is `x` on the server before the run. -/
def cacheSystem (x : Option Extent) : System CacheState CacheAction CacheEvent where
  init s := s = { lock := .initial, cache := fun _ => none, server := x, op := fun _ => .idle }
  next := CacheState.next

/-- All locks and extents. -/
def cacheWorld (x : ExtentId → Option Extent) :
    System (ExtentId → CacheState) (ExtentId × CacheAction) (ExtentId × CacheEvent) :=
  .pi fun eid => cacheSystem (x eid)

end Yfs.Extents
