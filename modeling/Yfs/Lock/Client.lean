import Yfs.Lock.Server

/-!
# The caching lock client

`lock_client_cache` keeps one `ClientCacheLock` per lock id. Its four entry points (`acquire` and
`release` for the local threads, `revoke_handler` and `retry_handler` for the server) alternate
between sections under the client's mutex and calls to the server made with the mutex released.
The functions here are the sections, each with what the thread does next; `Yfs.Lock.System` strings
them together.

The condition variables carry no state. POSIX allows a waiter to wake up at any time, and the code
tests its condition again when it does, so a waiting thread is modelled by its place in the code.
-/

namespace Yfs.Lock

/-- A local thread, `pthread_t`. -/
abbrev ThreadId := Nat

/-- `ClientCacheLock::State`. -/
inductive ClientState where
  | none
  | free
  | locked
  | acquiring
  | releasing
  deriving DecidableEq, Repr

/-- `ClientCacheLock`: the client's record of one lock. `owner` is `none` for the initial `-1`. -/
structure ClientCacheLock where
  state : ClientState
  owner : Option ThreadId
  revoke : Nat
  retry : Bool
  deriving DecidableEq, Repr

/-- What a thread in `acquire` does when it leaves a section. -/
inductive AcquireNext where
  /-- `acquire_flag`: call the server. -/
  | call
  /-- The lock is ours, `acquire` returns. -/
  | done
  /-- Wait for `wait_cond`. -/
  | wait
  /-- Wait for `release_cond`. -/
  | waitRelease
  /-- Wait for `retry_cond`. -/
  | waitRetry
  deriving DecidableEq, Repr

namespace ClientCacheLock

/-- The entry that `acquire` creates for a lock id it has not seen. -/
def new : ClientCacheLock := { state := .none, owner := none, revoke := 0, retry := false }

/-- The `switch` of `acquire`, run by thread `t` until it waits or leaves the loop. -/
def acquire (l : ClientCacheLock) (t : ThreadId) : ClientCacheLock × AcquireNext :=
  match l.state with
  | .none => ({ l with state := .acquiring }, .call)
  | .free => ({ l with state := .locked, owner := some t }, .done)
  | .acquiring | .locked => (l, .wait)
  | .releasing => (l, .waitRelease)

/-- A thread wakes up from `wait_cond`: it waits again while the lock is being acquired or held,
else it goes through the `switch` once more. -/
def wakeWait (l : ClientCacheLock) (t : ThreadId) : ClientCacheLock × AcquireNext :=
  if l.state = .acquiring ∨ l.state = .locked then (l, .wait) else l.acquire t

/-- A thread wakes up from `release_cond`. -/
def wakeRelease (l : ClientCacheLock) (t : ThreadId) : ClientCacheLock × AcquireNext :=
  if l.state = .releasing then (l, .waitRelease) else l.acquire t

/-- `while (!retry) wait(retry_cond); retry = 0;` and around the loop to the next call. -/
def wakeRetry (l : ClientCacheLock) : ClientCacheLock × AcquireNext :=
  if l.retry then ({ l with retry := false }, .call) else (l, .waitRetry)

/-- The section after the acquire RPC returned `ret`. -/
def acquired (l : ClientCacheLock) (t : ThreadId) (ret : Status) : ClientCacheLock × AcquireNext :=
  if ret = .ok then ({ l with state := .locked, owner := some t }, .done) else l.wakeRetry

/-- The section of `release`, with its `release_flag`. Releasing a lock that is not held is only
complained about. -/
def release (l : ClientCacheLock) : ClientCacheLock × Bool :=
  -- a revoke came before the lock itself did
  if l.revoke ≠ 0 then ({ l with revoke := l.revoke - 1 }, true)
  else match l.state with
    | .none | .free | .acquiring => (l, false)
    | .locked => ({ l with state := .free }, false)
    | .releasing => (l, true)

/-- The section of `revoke_handler`, with its `release_flag`. -/
def revokeHandler (l : ClientCacheLock) : ClientCacheLock × Bool :=
  match l.state with
  -- the acquire reply is not here yet: remember the revoke for `release`
  | .none | .acquiring | .releasing => ({ l with revoke := l.revoke + 1 }, false)
  | .free => ({ l with state := .releasing }, true)
  | .locked => ({ l with state := .releasing }, false)

/-- The section of `retry_handler`. -/
def retryHandler (l : ClientCacheLock) : ClientCacheLock := { l with retry := true }

/-- The last section of `release` and of `revoke_handler`, once the server has the lock back. -/
def released (l : ClientCacheLock) : ClientCacheLock := { l with state := .none }

end ClientCacheLock

end Yfs.Lock
