import Yfs.Lib.Link
import Yfs.Lock.System

/-!
# What one lock is for each client

Seen from far enough, each client goes through a cycle: it asks for the lock, is denied or granted
it, lets its threads hold it in turn, and gives it back. A `Phase` is a client's position in this
cycle, together with what is under way on its behalf: which thread runs the acquire, where the
revoke of the current tenure is, where a retry addressed to it is, which activity gives the lock
back. `Move` lists the steps of the cycle with the events they emit.

`Inv s ph` ties a state of the protocol to the phases of all clients. Four links say that the places
of the threads are the ones the phases name; `EntryOk` says what each client's record looks like;
`ServerOk` says how the server's record follows from the phases. The phases are a proof device: no
part of the code computes them.
-/

namespace Yfs.Lock

open Yfs.Lib

/-- Where the revoke of a tenure is. -/
inductive Rev where
  /-- Not sent. -/
  | none
  /-- Sent by the acquire of activity `a` and not delivered. -/
  | msg (a : Act)
  /-- Delivered while the client was still acquiring: counted in `revoke`. -/
  | counted
  /-- Delivered while a thread held the lock: the state is RELEASING. -/
  | marked
  deriving DecidableEq

/-- Where the retry for a waiting client is. -/
inductive Ret where
  | none
  /-- Sent by the release of activity `a` and not delivered. -/
  | msg (a : Act)
  /-- Delivered: the retry flag is set. -/
  | flagged
  deriving DecidableEq

/-- A client's position in the life cycle of a lock. -/
inductive Phase where
  | idle
  /-- Thread `t`'s acquire RPC is on its way; `called` if it answers a retry. -/
  | requesting (t : ThreadId) (called : Bool)
  /-- The server answered RETRY to thread `t` and put the client into its queue. -/
  | denied (t : ThreadId) (r : Ret)
  /-- The server answered OK to thread `t`. -/
  | granted (t : ThreadId) (r : Rev)
  /-- Thread `t` is between `acquire` and `release`. -/
  | held (t : ThreadId) (r : Rev)
  /-- The lock is here and no thread wants it. -/
  | cached (r : Rev)
  /-- Activity `a` is in `dorelease`. -/
  | flushing (a : Act)
  /-- Activity `a`'s release RPC is on its way. -/
  | sending (a : Act)
  /-- The server has the lock back, activity `a` has not finished. -/
  | settling (a : Act)
  deriving DecidableEq

namespace Phase

/-- From the server granting the lock to the server processing the release. -/
@[simp] def tenure : Phase → Bool
  | granted .. | held .. | cached .. | flushing .. | sending .. => true
  | _ => false

/-- A revoke was sent in this tenure. -/
@[simp] def revoked : Phase → Bool
  | granted _ r | held _ r | cached r => r ≠ .none
  | flushing _ | sending _ => true
  | _ => false

/-- The client was chosen to come and get the lock. -/
@[simp] def called : Phase → Bool
  | requesting _ b => b
  | denied _ r => r ≠ .none
  | _ => false

/-- The server has the client in its queue. -/
@[simp] def queued : Phase → Bool
  | requesting _ b => b
  | denied .. => true
  | _ => false

end Phase

/-! ## The cycle -/

/-- The client an event is about. -/
def Event.client : Event → ClientId
  | granted c | sendRevoke c | revoked c | acquired c _ | released c _ | sendRelease c
  | returned c => c

/-- The events about `c`. -/
def eventsOf (c : ClientId) (es : List Event) : List Event := es.filter fun e => e.client = c

/-- One step of the life cycle of client `c`. -/
inductive Move (c : ClientId) : Phase → Phase → List Event → Prop where
  | stay {p} : Move c p p []
  | request {t} : Move c .idle (.requesting t false) []
  | deny {t} : Move c (.requesting t false) (.denied t .none) []
  | grant {t b} : Move c (.requesting t b) (.granted t .none) [.granted c]
  | grantRevoke {t b a} :
      Move c (.requesting t b) (.granted t (.msg a)) [.granted c, .sendRevoke c]
  | revokeGranted {t a} : Move c (.granted t .none) (.granted t (.msg a)) [.sendRevoke c]
  | revokeHeld {t a} : Move c (.held t .none) (.held t (.msg a)) [.sendRevoke c]
  | revokeCached {a} : Move c (.cached .none) (.cached (.msg a)) [.sendRevoke c]
  | count {t a} : Move c (.granted t (.msg a)) (.granted t .counted) [.revoked c]
  | mark {t a} : Move c (.held t (.msg a)) (.held t .marked) [.revoked c]
  | takeCached {a} : Move c (.cached (.msg a)) (.flushing a) [.revoked c]
  | inform {t a} : Move c (.denied t .none) (.denied t (.msg a)) []
  | flag {t a} : Move c (.denied t (.msg a)) (.denied t .flagged) []
  | again {t} : Move c (.denied t .flagged) (.requesting t true) []
  | enter {t r} : Move c (.granted t r) (.held t r) [.acquired c t]
  | hit {t r} : Move c (.cached r) (.held t r) [.acquired c t]
  | leave {t r} : r ≠ .counted → r ≠ .marked → Move c (.held t r) (.cached r) [.released c t]
  | giveUp {t r} : r = .counted ∨ r = .marked →
      Move c (.held t r) (.flushing (c, t)) [.released c t]
  | send {a} : Move c (.flushing a) (.sending a) [.sendRelease c]
  | back {a} : Move c (.sending a) (.settling a) [.returned c]
  | finish {a} : Move c (.settling a) .idle []

/-- All clients make a step of their cycle (most of them stay), and the events are theirs. -/
def Moves (ph ph' : ClientId → Phase) (es : List Event) : Prop :=
  ∀ c, Move c (ph c) (ph' c) (eventsOf c es)

/-! ## The links between threads and phases -/

/-- The part a thread has in the lock of its own client. -/
inductive Own where
  | requesting
  | denied
  | granted
  | held
  deriving DecidableEq

/-- The part an activity has in giving a lock back. -/
inductive Rel where
  | flushing
  | sending
  | settling
  deriving DecidableEq

@[simp] def RelPc.rel : RelPc → Rel
  | .flush => .flushing
  | .call => .sending
  | .retry _ | .reply => .settling

@[simp] def Status.own (ret : Status) : Own := if ret = .ok then .granted else .denied

/-- What a place in the code says about the client whose thread it is. -/
@[simp] def Pc.own (a : Act) : Pc → Option (ClientId × Own)
  | .acquireCall => some (a.1, .requesting)
  | .revoking _ ret _ => some (a.1, ret.own)
  | .acquireReply ret => some (a.1, ret.own)
  | .waitingRetry => some (a.1, .denied)
  | .holding => some (a.1, .held)
  | _ => none

/-- The client whose lock is being given back at a place in the code. -/
@[simp] def Pc.rel (a : Act) : Pc → Option (ClientId × Rel)
  | .releasing p => some (a.1, p.rel)
  | .revoking h _ (.rel p) => some (h, p.rel)
  | _ => none

/-- The client a revoke is on its way to. -/
@[simp] def Pc.rev : Pc → Option (ClientId × Unit)
  | .revoking h _ .call => some (h, ())
  | _ => none

/-- The client a retry is on its way to. -/
@[simp] def Pc.ret : Pc → Option (ClientId × Unit)
  | .releasing (.retry addr) => some (addr, ())
  | .revoking _ _ (.rel (.retry addr)) => some (addr, ())
  | _ => none

@[simp] def Phase.own (c : ClientId) : Phase → Option (Act × Own)
  | .requesting t _ => some ((c, t), .requesting)
  | .denied t _ => some ((c, t), .denied)
  | .granted t _ => some ((c, t), .granted)
  | .held t _ => some ((c, t), .held)
  | _ => none

@[simp] def Phase.rel : Phase → Option (Act × Rel)
  | .flushing a => some (a, .flushing)
  | .sending a => some (a, .sending)
  | .settling a => some (a, .settling)
  | _ => none

@[simp] def Phase.rev : Phase → Option (Act × Unit)
  | .granted _ (.msg a) | .held _ (.msg a) | .cached (.msg a) => some (a, ())
  | _ => none

@[simp] def Phase.ret : Phase → Option (Act × Unit)
  | .denied _ (.msg a) => some (a, ())
  | _ => none

/-! ## The invariant -/

/-- `revoke` counts the revoke that came before the acquire reply, and no other. -/
@[simp] def Rev.count (r : Rev) : Nat := if r = .counted then 1 else 0

/-- What a client's record looks like in each phase. -/
def EntryOk : Phase → Option ClientCacheLock → Prop
  | .idle, e => ∀ l, e = some l → l.state = .none ∧ l.revoke = 0 ∧ l.retry = false
  | .requesting _ _, e => ∃ l, e = some l ∧ l.state = .acquiring ∧ l.revoke = 0 ∧ l.retry = false
  | .denied _ r, e =>
      ∃ l, e = some l ∧ l.state = .acquiring ∧ l.revoke = 0 ∧ l.retry = decide (r = .flagged)
  | .granted _ r, e =>
      ∃ l, e = some l ∧ l.state = .acquiring ∧ l.revoke = r.count ∧ l.retry = false ∧ r ≠ .marked
  | .held _ r, e =>
      ∃ l, e = some l ∧ l.state = (if r = .marked then .releasing else .locked) ∧
        l.revoke = r.count ∧ l.retry = false
  | .cached r, e =>
      ∃ l, e = some l ∧ l.state = .free ∧ l.revoke = 0 ∧ l.retry = false ∧
        r ≠ .counted ∧ r ≠ .marked
  | .flushing _, e | .sending _, e | .settling _, e =>
      ∃ l, e = some l ∧ (l.state = .locked ∨ l.state = .releasing) ∧ l.revoke = 0 ∧ l.retry = false

/-- What the server's state says about the clients. -/
def StateOk (ph : ClientId → Phase) (l : CacheLock) : Prop :=
  match l.state with
  | .free => l.queue = ∅ ∧ (∀ c, (ph c).tenure = false)
  | .locked =>
      l.queue = ∅ ∧ (∀ c, (ph c).tenure = true ↔ c = l.client) ∧ (ph l.client).revoked = false
  | .lockedAndWait =>
      l.queue.Nonempty ∧ (∀ c, (ph c).tenure = true ↔ c = l.client) ∧
        (ph l.client).revoked = true ∧ ∀ c, (ph c).called = false
  | .ordered =>
      (∀ c, (ph c).tenure = false) ∧ ∃ a ∈ l.queue, ∀ c, (ph c).called = true ↔ c = a

/-- What the server's record says about the clients. -/
structure ServerOk (ph : ClientId → Phase) (l : CacheLock) : Prop where
  queue : ∀ c, c ∈ l.queue ↔ (ph c).queued = true
  state : StateOk ph l

/-- The places of the threads and the records of the clients are the ones the phases say. -/
structure Links (clients : ClientId → Option ClientCacheLock) (pc : Act → Pc)
    (ph : ClientId → Phase) : Prop where
  own : Linked (fun a => (pc a).own a) (fun c => (ph c).own c)
  rel : Linked (fun a => (pc a).rel a) (fun c => (ph c).rel)
  rev : Linked (fun a => (pc a).rev) (fun c => (ph c).rev)
  ret : Linked (fun a => (pc a).ret) (fun c => (ph c).ret)
  entry : ∀ c, EntryOk (ph c) (clients c)

/-- The state of the protocol `s` is the one where each client `c` is in phase `ph c`. -/
structure Inv (s : LockState) (ph : ClientId → Phase) : Prop where
  links : Links s.clients s.pc ph
  server : ServerOk ph (s.server.getD .new)

end Yfs.Lock
