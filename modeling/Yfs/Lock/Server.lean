import Mathlib.Data.Finset.Max
import Mathlib.Data.String.Basic

/-!
# The caching lock server

`lock_server_cache` keeps one `CacheLock` per lock id. Each of its two handlers runs one section
under `server_mutex`, and then, with the mutex released, may call back to a client: `acquire`
sends a revoke to the holder, `release` sends a retry to the first waiter. The functions here are
the two sections; they return what the handler does next. The entry of a lock id that was never
asked for is `none`.
-/

namespace Yfs.Lock

/-- `lock_protocol::lockid_t`. -/
abbrev LockId := UInt64

/-- The id a client signs its requests with, the address its callbacks are served at. -/
abbrev ClientId := String

/-- `lock_protocol::xxstatus`. -/
inductive Status where
  | ok
  | retry
  | rpcerr
  | noent
  | ioerr
  deriving DecidableEq, Repr

/-- `CacheLock::State`. -/
inductive ServerState where
  | free
  | locked
  | lockedAndWait
  | ordered
  deriving DecidableEq, Repr

/-- `CacheLock`: the server's record of one lock. `client` is `""` when nobody holds it. -/
structure CacheLock where
  client : ClientId
  state : ServerState
  queue : Finset ClientId
  deriving DecidableEq

namespace CacheLock

/-- The entry that `acquire` creates for a lock id it has not seen. -/
def new : CacheLock := { client := "", state := .free, queue := ∅ }

/-- `*(queue.begin())`: the least id of the set. Dereferencing `begin()` of an empty set is
undefined, here `none`. -/
def begin? (queue : Finset ClientId) : Option ClientId :=
  if h : queue.Nonempty then some (queue.min' h) else none

theorem begin?_mem {q : Finset ClientId} {a : ClientId} (h : begin? q = some a) : a ∈ q := by
  unfold begin? at h
  split at h
  · cases h
    exact Finset.min'_mem _ _
  · cases h

theorem begin?_of_nonempty {q : Finset ClientId} (h : q.Nonempty) : ∃ a, begin? q = some a :=
  ⟨q.min' h, by simp [begin?, h]⟩

/-- The section of `lock_server_cache::acquire`: the new entry, the answer `ret`, and
`holder_id` when `need_revoke` was set. -/
def acquire (l : CacheLock) (id : ClientId) : CacheLock × Status × Option ClientId :=
  match l.state with
  | .free => ({ l with state := .locked, client := id }, .ok, none)
  | .locked =>
      -- the first one to wait makes the server revoke the lock
      ({ l with state := .lockedAndWait, queue := insert id l.queue }, .retry, some l.client)
  | .lockedAndWait => ({ l with queue := insert id l.queue }, .retry, none)
  | .ordered =>
      if id ∈ l.queue then
        -- the client that was called comes for the lock; if others wait, it is revoked at once
        let queue := l.queue.erase id
        if queue.card ≠ 0 then
          ({ client := id, queue, state := .lockedAndWait }, .ok, some id)
        else
          ({ client := id, queue, state := .locked }, .ok, none)
      else
        ({ l with queue := insert id l.queue }, .retry, none)

/-- The section of `lock_server_cache::release`: the new entry, and the waiter `addr` to inform.
The releasing client's id is only printed. `none` is the undefined `*(queue.begin())`. -/
def release (l : CacheLock) : Option (CacheLock × Option ClientId) :=
  match l.state with
  | .free => some (l, none)
  | .locked => some ({ l with state := .free, client := "" }, none)
  | .lockedAndWait => do
      let addr ← begin? l.queue
      return ({ l with state := .ordered, client := "" }, some addr)
  | .ordered => some (l, none)

end CacheLock

/-- `acquire` at the server: look the entry up, creating it first if need be. -/
def serverAcquire (e : Option CacheLock) (id : ClientId) :
    CacheLock × Status × Option ClientId :=
  (e.getD .new).acquire id

/-- `release` at the server: a lock id that was never acquired is only complained about. -/
def serverRelease (e : Option CacheLock) : Option (Option CacheLock × Option ClientId) :=
  match e with
  | none => some (none, none)
  | some l => l.release.map fun r => (some r.1, r.2)

end Yfs.Lock
