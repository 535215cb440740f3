import Yfs.Rpc.Header
import Yfs.Rpc.XidWindow

/-!
# The client endpoint of the RPC library

`Rpcc` is the state of one `rpcc` together with the stack frames of all `call1` it ever ran. A
step of `call1` goes from one section under a mutex to the next: the section that allocates the
xid, `get_refconn`, the transmission, the timed wait, the section that ends the call, the
bookkeeping for lossy connections. `got_pdu` and `cancel` are a section each.

What the code asks of its surroundings is part of the action: whether a connection is dead, which
connection `connect_to_dst` returns, whether the wait is over and whether it was the last one
before the final deadline. Clients that want no at-most-once semantics (`retrans_` false, nonce 0)
are left out.
-/

namespace Yfs.Rpc

/-- A connection. -/
abbrev Conn := Nat

/-- Where a thread is in `call1`. `last` says that `finaldeadline.tv_sec` is 0: the final deadline
is the next one, or has passed. -/
inductive CallPc where
  /-- At the top of the loop with `transmit` set. -/
  | transmit (last : Bool)
  /-- `get_refconn` has returned. -/
  | send (last : Bool)
  /-- In the timed wait. -/
  | wait (last : Bool)
  /-- Out of the loop. -/
  | leave
  /-- No longer in `calls_`. -/
  | finish
  /-- `call1` has returned. -/
  | returned (ret : Int32)
  /-- `bind` has returned after its `call1` returned 0. -/
  | bound
  deriving DecidableEq, Repr

/-- In `calls_`: the section that ends the call has not run. -/
def CallPc.pending : CallPc → Bool
  | transmit _ | send _ | wait _ | leave => true
  | _ => false

/-- A stack frame of `call1` with its `caller`. -/
structure Call where
  req : Request
  ch : Option Conn
  done : Bool
  intret : Int32
  un : Bytes
  pc : CallPc
  deriving DecidableEq, Repr

/-- The value of `call1`. -/
def Call.result (f : Call) : Int32 := if f.done then f.intret else timeoutFailure

structure Rpcc where
  cltNonce : UInt32
  lossytest : Bool
  srvNonce : UInt32
  bindDone : Bool
  xid : UInt32
  reachable : Bool
  chan : Option Conn
  destroyWait : Bool
  /-- The caller's frame is given by its place in `frames`. -/
  calls : List (UInt32 × Nat)
  xidRepWindow : List UInt32
  dupReq : Option Request
  xidRepDone : Int32
  frames : List Call
  deriving DecidableEq, Repr

inductive ClientAction where
  | call1 (proc : UInt32) (args : Bytes)
  | getRefconn (i : Nat) (dead : Bool) (conn : Option Conn)
  | send (i : Nat) (last : Bool)
  | wake (i : Nat)
  | timeout (i : Nat) (dead last : Bool)
  | leave (i : Nat)
  | finish (i : Nat)
  | bound (i : Nat)
  | gotPdu (rep : Reply)
  | cancel
  | setReachable (r : Bool)

/-- What an observer of one client sees. -/
inductive ClientEvent where
  /-- `call1` has allocated an xid and made the request. -/
  | started (req : Request)
  /-- `call1` has failed without that. -/
  | refused (ret : Int32)
  | sent (c : Conn) (req : Request)
  /-- `update_xid_rep` was called. -/
  | reported (xid : UInt32)
  | returned (req : Request) (ret : Int32) (un : Bytes)
  deriving DecidableEq, Repr

namespace Rpcc

/-- A new client. -/
def new (cltNonce : UInt32) (lossytest : Bool) : Rpcc where
  cltNonce := cltNonce
  lossytest := lossytest
  srvNonce := 0
  bindDone := false
  xid := 1
  reachable := true
  chan := none
  destroyWait := false
  calls := []
  xidRepWindow := [0]
  dupReq := none
  xidRepDone := -1
  frames := []

def setFrame (s : Rpcc) (i : Nat) (f : Call) : Rpcc := { s with frames := s.frames.set i f }

/-- The first section of `call1`. -/
def call1 (s : Rpcc) (proc : UInt32) (args : Bytes) : Rpcc × List ClientEvent :=
  if proc ≠ bindProc ∧ ¬ s.bindDone ∨ proc = bindProc ∧ s.bindDone then
    (s, [.refused bindFailure])
  else if s.destroyWait then (s, [.refused cancelFailure])
  else
    let h : ReqHeader := { xid := s.xid, proc, cltNonce := s.cltNonce, srvNonce := s.srvNonce,
                           xidRep := s.xidRepWindow.headD 0 }
    let f : Call := { req := ⟨h, args⟩, ch := none, done := false, intret := 0, un := [],
                      pc := .transmit false }
    ({ s with
        xid := s.xid + 1
        calls := (s.xid, s.frames.length) :: s.calls.filter (·.1 ≠ s.xid)
        frames := s.frames ++ [f] },
      [.started f.req])

/-- `get_refconn`: keep the connection or make a new one. Without a connection `ch` is not
touched. -/
def getRefconn (s : Rpcc) (i : Nat) (f : Call) (dead : Bool) (conn : Option Conn) : Rpcc :=
  let chan := if s.chan = none ∨ dead then conn else s.chan
  { s with chan }.setFrame i { f with ch := chan.or f.ch }

/-- Take the remembered request out if a later acknowledgement has reached the server. -/
def takeDup (s : Rpcc) : Rpcc × Option Request :=
  match s.dupReq with
  | some r =>
      if s.xidRepDone > r.hdr.xid.toInt32 then ({ s with dupReq := none }, some r) else (s, none)
  | none => (s, none)

/-- Send the request, and before it an old one that the server should have forgotten. -/
def transmit (s : Rpcc) (f : Call) : Rpcc × List ClientEvent :=
  match f.ch with
  | some c =>
      if s.reachable then
        let (s, forgot) := s.takeDup
        (s, forgot.toList.map (.sent c) ++ [.sent c f.req])
      else (s, [])
  | none => (s, [])

def updateXidRep (s : Rpcc) (xid : UInt32) : Rpcc :=
  { s with xidRepWindow := Rpc.updateXidRep s.xidRepWindow xid }

/-- The section after the loop. -/
def leave (s : Rpcc) (i : Nat) (f : Call) : Rpcc :=
  { s with calls := s.calls.filter (·.1 ≠ f.req.hdr.xid) }.updateXidRep f.req.hdr.xid
    |>.setFrame i { f with pc := .finish }

/-- Under `lossytest_`, remember a request to send it once more. -/
def remember (s : Rpcc) (f : Call) : Rpcc :=
  if f.done ∧ s.lossytest then
    { s with
      dupReq := s.dupReq.or (some f.req)
      xidRepDone := if f.req.hdr.xidRep.toInt32 > s.xidRepDone then f.req.hdr.xidRep.toInt32
        else s.xidRepDone }
  else s

def gotPdu (s : Rpcc) (rep : Reply) : Rpcc :=
  let s := s.updateXidRep rep.hdr.xid
  match s.calls.lookup rep.hdr.xid with
  | none => s
  | some i =>
      match s.frames[i]? with
      | none => s
      | some f =>
          if f.done then s
          else s.setFrame i { f with un := rep.body, intret := rep.hdr.ret, done := true }

/-- Make all callers fail; if there are any, no more calls are accepted. -/
def cancel (s : Rpcc) : Rpcc :=
  { s with
    destroyWait := s.destroyWait || !s.calls.isEmpty
    frames := s.frames.mapIdx fun i f =>
      if s.calls.any (·.2 = i) then { f with done := true, intret := cancelFailure } else f }

/-- One step of the client. -/
def step (s : Rpcc) : ClientAction → Option (Rpcc × List ClientEvent)
  | .call1 proc args => some (s.call1 proc args)
  | .getRefconn i dead conn => do
      let f ← s.frames[i]?
      let .transmit last := f.pc | none
      return (s.getRefconn i { f with pc := .send last } dead conn, [])
  | .send i last => do
      let f ← s.frames[i]?
      let .send final := f.pc | none
      let (s, es) := s.transmit f
      return (s.setFrame i { f with pc := if final then .leave else .wait last }, es)
  | .wake i => do
      let f ← s.frames[i]?
      let .wait _ := f.pc | none
      if f.done then return (s.setFrame i { f with pc := .leave }, []) else none
  | .timeout i dead last => do
      let f ← s.frames[i]?
      let .wait final := f.pc | none
      if f.done then none
      else if f.ch = none ∨ dead then return (s.setFrame i { f with pc := .transmit final }, [])
      else return (s.setFrame i { f with pc := if final then .leave else .wait last }, [])
  | .leave i => do
      let f ← s.frames[i]?
      if f.pc = .leave then return (s.leave i f, [.reported f.req.hdr.xid]) else none
  | .finish i => do
      let f ← s.frames[i]?
      if f.pc = .finish then
        return ((s.remember f).setFrame i { f with pc := .returned f.result },
          [.returned f.req f.result f.un])
      else none
  | .bound i => do
      let f ← s.frames[i]?
      if f.pc = .returned 0 ∧ f.req.hdr.proc = bindProc then
        let r ← readInt f.un
        return ({ s with bindDone := true, srvNonce := r }.setFrame i { f with pc := .bound }, [])
      else none
  | .gotPdu rep => some (s.gotPdu rep, [.reported rep.hdr.xid])
  | .cancel => some (s.cancel, [])
  | .setReachable r => some ({ s with reachable := r }, [])

/-- What a step can do, as a relation. -/
inductive Step (s : Rpcc) : ClientAction → Rpcc → List ClientEvent → Prop where
  | call1 {proc args} : Step s (.call1 proc args) (s.call1 proc args).1 (s.call1 proc args).2
  | getRefconn {i f last dead conn} : s.frames[i]? = some f → f.pc = .transmit last →
      Step s (.getRefconn i dead conn) (s.getRefconn i { f with pc := .send last } dead conn) []
  | send {i f final last} : s.frames[i]? = some f → f.pc = .send final →
      Step s (.send i last)
        ((s.transmit f).1.setFrame i { f with pc := if final then .leave else .wait last })
        (s.transmit f).2
  | wake {i f final} : s.frames[i]? = some f → f.pc = .wait final → f.done = true →
      Step s (.wake i) (s.setFrame i { f with pc := .leave }) []
  | timeout {i f final pc dead last} : s.frames[i]? = some f → f.pc = .wait final →
      pc = .transmit final ∨ pc = .leave ∨ pc = .wait last →
      Step s (.timeout i dead last) (s.setFrame i { f with pc := pc }) []
  | leave {i f} : s.frames[i]? = some f → f.pc = .leave →
      Step s (.leave i) (s.leave i f) [.reported f.req.hdr.xid]
  | finish {i f} : s.frames[i]? = some f → f.pc = .finish →
      Step s (.finish i) ((s.remember f).setFrame i { f with pc := .returned f.result })
        [.returned f.req f.result f.un]
  | bound {i f r} : s.frames[i]? = some f → f.pc = .returned 0 → f.req.hdr.proc = bindProc →
      readInt f.un = some r →
      Step s (.bound i)
        ({ s with bindDone := true, srvNonce := r }.setFrame i { f with pc := .bound }) []
  | gotPdu {rep} : Step s (.gotPdu rep) (s.gotPdu rep) [.reported rep.hdr.xid]
  | cancel : Step s .cancel s.cancel []
  | setReachable {r} : Step s (.setReachable r) { s with reachable := r } []

theorem step_inv {s s' : Rpcc} {a : ClientAction} {es : List ClientEvent}
    (h : s.step a = some (s', es)) : s.Step a s' es := by
  cases a with
  | call1 =>
      obtain ⟨rfl, rfl⟩ := Prod.ext_iff.mp (Option.some.inj h)
      exact .call1
  | gotPdu | cancel | setReachable =>
      cases h
      constructor
  | getRefconn i dead conn =>
      obtain ⟨f, hf, h⟩ := Option.bind_eq_some_iff.mp h
      split at h
      · cases h
        exact .getRefconn hf ‹_›
      · cases h
  | send i last =>
      obtain ⟨f, hf, h⟩ := Option.bind_eq_some_iff.mp h
      split at h
      · cases h
        exact .send hf ‹_›
      · cases h
  | wake i =>
      obtain ⟨f, hf, h⟩ := Option.bind_eq_some_iff.mp h
      split at h
      · split at h
        · cases h
          exact .wake hf ‹_› ‹_›
        · cases h
      · cases h
  | timeout i dead last =>
      obtain ⟨f, hf, h⟩ := Option.bind_eq_some_iff.mp h
      split at h
      · split at h
        · cases h
        · split at h <;> cases h
          · exact .timeout hf ‹_› (.inl rfl)
          · refine .timeout hf ‹_› (.inr ?_)
            split
            · exact .inl rfl
            · exact .inr rfl
      · cases h
  | leave i =>
      obtain ⟨f, hf, h⟩ := Option.bind_eq_some_iff.mp h
      split at h
      · cases h
        exact .leave hf ‹_›
      · cases h
  | finish i =>
      obtain ⟨f, hf, h⟩ := Option.bind_eq_some_iff.mp h
      split at h
      · cases h
        exact .finish hf ‹_›
      · cases h
  | bound i =>
      obtain ⟨f, hf, h⟩ := Option.bind_eq_some_iff.mp h
      split at h
      · obtain ⟨r, hr, h⟩ := Option.bind_eq_some_iff.mp h
        cases h
        exact .bound hf ‹_ ∧ _›.1 ‹_ ∧ _›.2 hr
      · cases h

/-- A transmission sends nothing, the request, or a request remembered earlier and the request. -/
theorem transmit_cases (s : Rpcc) (f : Call) :
    s.transmit f = (s, []) ∨ ∃ c, f.ch = some c ∧ (s.transmit f = (s, [.sent c f.req]) ∨
      ∃ req ∈ s.dupReq, s.transmit f =
        ({ s with dupReq := none }, [.sent c req, .sent c f.req])) := by
  unfold transmit
  cases f.ch with
  | none => exact .inl rfl
  | some c =>
      by_cases hr : s.reachable = true
      · refine .inr ⟨c, rfl, ?_⟩
        simp only [hr, if_true, takeDup]
        cases hd : s.dupReq with
        | none => exact .inl rfl
        | some req =>
            by_cases hx : s.xidRepDone > req.hdr.xid.toInt32
            · exact .inr ⟨req, rfl, by simp [hx]⟩
            · exact .inl (by simp [hx])
      · exact .inl (by simp [hr])

/-- A client keeps its nonce. -/
theorem Step.cltNonce {s s' : Rpcc} {a : ClientAction} {es : List ClientEvent}
    (h : s.Step a s' es) : s'.cltNonce = s.cltNonce := by
  cases h with
  | call1 =>
      unfold Rpcc.call1
      split
      · rfl
      · split <;> rfl
  | @send _ f =>
      rcases transmit_cases s f with h | ⟨c, -, h | ⟨req, -, h⟩⟩ <;> simp [setFrame, h]
  | @finish _ f =>
      simp only [setFrame, remember]
      split <;> rfl
  | @gotPdu rep =>
      simp only [Rpcc.gotPdu]
      split
      · rfl
      · split
        · rfl
        · split <;> rfl
  | _ => rfl

end Rpcc

end Yfs.Rpc
