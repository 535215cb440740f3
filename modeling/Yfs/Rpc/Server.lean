import Yfs.Rpc.Client
import Yfs.Rpc.ReplyWindow

/-!
# The server endpoint of the RPC library

`Rpcs` is the state of one server instance together with the jobs its dispatch threads work on. A
step of `dispatch` goes from one section under a mutex to the next; any number of jobs may be under
way at once. The handlers are arbitrary: a handler's return value and result are part of the action,
except for `rpcbind`, which answers the instance's nonce. `none` in place of the next state says that
the process has aborted (`VERIFY`, `assert`, or a null pointer).
-/

namespace Yfs.Rpc

/-- Where a thread is in `dispatch`. -/
inductive JobPc where
  /-- In the queue of the thread pool. -/
  | arrived
  /-- The request is for this instance and has a handler. -/
  | save
  /-- The connection is saved. -/
  | check
  /-- The request is to be executed. -/
  | new
  /-- In the handler. -/
  | running
  /-- The handler has returned and the reply is packed. -/
  | reply (b : Reply)
  /-- The reply is recorded. -/
  | choose (b : Reply)
  /-- About to send. -/
  | send (b : Reply)
  | finished
  deriving DecidableEq, Repr

structure Job where
  conn : Conn
  req : Request
  pc : JobPc
  deriving DecidableEq, Repr

structure Rpcs where
  nonce : UInt32
  /-- The registered procedures apart from bind. -/
  procs : List UInt32
  replyWindow : UInt32 → List ReplyT
  conns : UInt32 → Option Conn
  jobs : List Job

inductive ServerAction where
  | gotPdu (c : Conn) (req : Request)
  | header (j : Nat)
  /-- `older`: the saved connection is older than the job's. -/
  | saveConn (j : Nat) (older : Bool)
  | check (j : Nat)
  | call (j : Nat)
  | ret (j : Nat) (ret : Int32) (body : Bytes)
  | addReply (j : Nat)
  /-- `dead`: the job's connection is dead. -/
  | choose (j : Nat) (dead : Bool)
  | send (j : Nat)

/-- What an observer of one instance sees. -/
inductive ServerEvent where
  | received (c : Conn) (req : Request)
  /-- The handler is called for this request. -/
  | executed (req : Request)
  /-- The handler has returned. -/
  | produced (req : Request) (ret : Int32) (body : Bytes)
  | sent (c : Conn) (b : Reply)
  deriving DecidableEq, Repr

namespace Rpcs

/-- A new instance. -/
def new (nonce : UInt32) (procs : List UInt32) : Rpcs where
  nonce := nonce
  procs := procs
  replyWindow := fun _ => []
  conns := fun _ => none
  jobs := []

def setJob (s : Rpcs) (j : Nat) (job : Job) : Rpcs := { s with jobs := s.jobs.set j job }

/-- A reply without a result. -/
def failure (req : Request) (ret : Int32) : Reply := ⟨⟨req.hdr.xid, ret⟩, []⟩

/-- The checks of the header, up to finding the handler. -/
def header (s : Rpcs) (j : Nat) (job : Job) : Option Rpcs × List ServerEvent :=
  let h := job.req.hdr
  if h.srvNonce ≠ 0 ∧ h.srvNonce ≠ s.nonce then
    (some (s.setJob j { job with pc := .finished }), [.sent job.conn (failure job.req oldsrvFailure)])
  else if h.proc ≠ bindProc ∧ h.proc ∉ s.procs then (none, [])
  else (some (s.setJob j { job with pc := if h.cltNonce ≠ 0 then .save else .new }), [])

/-- Save the latest good connection to the client. -/
def saveConn (s : Rpcs) (j : Nat) (job : Job) (older : Bool) : Rpcs :=
  let clt := job.req.hdr.cltNonce
  { s with conns := if s.conns clt = none ∨ older then Function.update s.conns clt (some job.conn)
                    else s.conns }.setJob j { job with pc := .check }

/-- Where a job goes after `checkduplicate_and_update`. -/
def afterCheck (req : Request) : RpcState → JobPc
  | .new => .new
  | .inprogress => .finished
  | .done b => b.elim .finished .send
  | .forgotten => .send (failure req atmostonceFailure)

/-- `checkduplicate_and_update` with its assertion. -/
def check (s : Rpcs) (j : Nat) (job : Job) : Option Rpcs :=
  let h := job.req.hdr
  if h.xid > h.xidRep then
    let (w, st) := checkduplicateAndUpdate (s.replyWindow h.cltNonce) h.xid h.xidRep
    some ({ s with replyWindow := Function.update s.replyWindow h.cltNonce w }.setJob j
      { job with pc := afterCheck job.req st })
  else none

/-- The handler returns. -/
def ret (s : Rpcs) (j : Nat) (job : Job) (ret : Int32) (body : Bytes) :
    Option (Option Rpcs × List ServerEvent) :=
  if job.req.hdr.proc = bindProc ∧ ¬ (ret < 0) ∧ (ret ≠ 0 ∨ body ≠ intBody s.nonce) then none
  else if ret < 0 then some (none, [])
  else some (some (s.setJob j { job with pc := .reply ⟨⟨job.req.hdr.xid, ret⟩, body⟩ }),
    [.produced job.req ret body])

/-- `add_reply` with its assertion, for clients that want at-most-once semantics. -/
def addReply (s : Rpcs) (j : Nat) (job : Job) (b : Reply) : Option Rpcs :=
  let clt := job.req.hdr.cltNonce
  let job' := { job with pc := .choose b }
  if clt = 0 then some (s.setJob j job')
  else if s.replyWindow clt = [] then none
  else
    let w := Rpc.addReply job.req.hdr.xid b (s.replyWindow clt)
    some ({ s with replyWindow := Function.update s.replyWindow clt w }.setJob j job')

/-- Get the latest connection to the client if the job's own is dead. -/
def choose (s : Rpcs) (j : Nat) (job : Job) (b : Reply) (dead : Bool) : Option Rpcs :=
  let conn := s.conns job.req.hdr.cltNonce
  if dead ∧ conn ≠ some job.conn then
    conn.map fun c => s.setJob j { job with conn := c, pc := .send b }
  else some (s.setJob j { job with pc := .send b })

/-- One step of a server instance. -/
def step (s : Rpcs) : ServerAction → Option (Option Rpcs × List ServerEvent)
  | .gotPdu c req =>
      some (some { s with jobs := s.jobs ++ [⟨c, req, .arrived⟩] }, [.received c req])
  | .header j => do
      let job ← s.jobs[j]?
      let .arrived := job.pc | none
      return s.header j job
  | .saveConn j older => do
      let job ← s.jobs[j]?
      let .save := job.pc | none
      return (some (s.saveConn j job older), [])
  | .check j => do
      let job ← s.jobs[j]?
      let .check := job.pc | none
      return (s.check j job, [])
  | .call j => do
      let job ← s.jobs[j]?
      let .new := job.pc | none
      return (some (s.setJob j { job with pc := .running }), [.executed job.req])
  | .ret j r body => do
      let job ← s.jobs[j]?
      let .running := job.pc | none
      s.ret j job r body
  | .addReply j => do
      let job ← s.jobs[j]?
      let .reply b := job.pc | none
      return (s.addReply j job b, [])
  | .choose j dead => do
      let job ← s.jobs[j]?
      let .choose b := job.pc | none
      return (s.choose j job b dead, [])
  | .send j => do
      let job ← s.jobs[j]?
      let .send b := job.pc | none
      return (some (s.setJob j { job with pc := .finished }), [.sent job.conn b])

/-- What a step can do, as a relation. -/
inductive Step (s : Rpcs) : ServerAction → Option Rpcs → List ServerEvent → Prop where
  | gotPdu {c req} : Step s (.gotPdu c req)
      (some { s with jobs := s.jobs ++ [⟨c, req, .arrived⟩] }) [.received c req]
  | header {j job} : s.jobs[j]? = some job → job.pc = .arrived →
      Step s (.header j) (s.header j job).1 (s.header j job).2
  | saveConn {j job older} : s.jobs[j]? = some job → job.pc = .save →
      Step s (.saveConn j older) (some (s.saveConn j job older)) []
  | check {j job} : s.jobs[j]? = some job → job.pc = .check →
      Step s (.check j) (s.check j job) []
  | call {j job} : s.jobs[j]? = some job → job.pc = .new →
      Step s (.call j) (some (s.setJob j { job with pc := .running })) [.executed job.req]
  | ret {j job r body o} : s.jobs[j]? = some job → job.pc = .running →
      s.ret j job r body = some o → Step s (.ret j r body) o.1 o.2
  | addReply {j job b} : s.jobs[j]? = some job → job.pc = .reply b →
      Step s (.addReply j) (s.addReply j job b) []
  | choose {j job b dead} : s.jobs[j]? = some job → job.pc = .choose b →
      Step s (.choose j dead) (s.choose j job b dead) []
  | send {j job b} : s.jobs[j]? = some job → job.pc = .send b →
      Step s (.send j) (some (s.setJob j { job with pc := .finished })) [.sent job.conn b]

theorem step_inv {s : Rpcs} {a : ServerAction} {s' : Option Rpcs} {es : List ServerEvent}
    (h : s.step a = some (s', es)) : s.Step a s' es := by
  cases a with
  | gotPdu c req =>
      cases h
      exact .gotPdu
  | header j =>
      obtain ⟨job, hj, h⟩ := Option.bind_eq_some_iff.mp h
      split at h
      · obtain ⟨rfl, rfl⟩ := Prod.ext_iff.mp (Option.some.inj h)
        exact .header hj ‹_›
      · cases h
  | saveConn j older =>
      obtain ⟨job, hj, h⟩ := Option.bind_eq_some_iff.mp h
      split at h
      · cases h
        exact .saveConn hj ‹_›
      · cases h
  | check j =>
      obtain ⟨job, hj, h⟩ := Option.bind_eq_some_iff.mp h
      split at h
      · obtain ⟨rfl, rfl⟩ := Prod.ext_iff.mp (Option.some.inj h)
        exact .check hj ‹_›
      · cases h
  | call j =>
      obtain ⟨job, hj, h⟩ := Option.bind_eq_some_iff.mp h
      split at h
      · cases h
        exact .call hj ‹_›
      · cases h
  | ret j r body =>
      obtain ⟨job, hj, h⟩ := Option.bind_eq_some_iff.mp h
      split at h
      · exact .ret hj ‹_› h
      · cases h
  | addReply j =>
      obtain ⟨job, hj, h⟩ := Option.bind_eq_some_iff.mp h
      split at h
      · obtain ⟨rfl, rfl⟩ := Prod.ext_iff.mp (Option.some.inj h)
        exact .addReply hj ‹_›
      · cases h
  | choose j dead =>
      obtain ⟨job, hj, h⟩ := Option.bind_eq_some_iff.mp h
      split at h
      · obtain ⟨rfl, rfl⟩ := Prod.ext_iff.mp (Option.some.inj h)
        exact .choose hj ‹_›
      · cases h
  | send j =>
      obtain ⟨job, hj, h⟩ := Option.bind_eq_some_iff.mp h
      split at h
      · cases h
        exact .send hj ‹_›
      · cases h

/-! ## What the sections of `dispatch` do -/

section
variable {s s' : Rpcs} {j : Nat} {job : Job} {b : Reply}

/-- A request for another instance is refused, or the procedure is registered and `dispatch` goes on. -/
theorem header_eq_some (h : (s.header j job).1 = some s') :
    (s' = s.setJob j { job with pc := .finished } ∧
      (s.header j job).2 = [.sent job.conn (failure job.req oldsrvFailure)]) ∨
    (¬ (job.req.hdr.srvNonce ≠ 0 ∧ job.req.hdr.srvNonce ≠ s.nonce) ∧
      ¬ (job.req.hdr.proc ≠ bindProc ∧ job.req.hdr.proc ∉ s.procs) ∧
      s' = s.setJob j { job with pc := if job.req.hdr.cltNonce ≠ 0 then .save else .new } ∧
      (s.header j job).2 = []) := by
  revert h
  simp only [header]
  split
  · rintro ⟨⟩
    exact .inl ⟨rfl, rfl⟩
  · rename_i hnonce
    split
    · rintro ⟨⟩
    · rename_i hproc
      rintro ⟨⟩
      exact .inr ⟨hnonce, hproc, rfl, rfl⟩

theorem check_eq_some (h : s.check j job = some s') :
    job.req.hdr.xid > job.req.hdr.xidRep ∧ ∃ r,
      checkduplicateAndUpdate (s.replyWindow job.req.hdr.cltNonce) job.req.hdr.xid
        job.req.hdr.xidRep = r ∧
      s' = { s with replyWindow := Function.update s.replyWindow job.req.hdr.cltNonce r.1 }.setJob j
        { job with pc := afterCheck job.req r.2 } := by
  simp only [check] at h
  split at h
  · rename_i hxid
    cases h
    exact ⟨hxid, _, rfl, rfl⟩
  · cases h

theorem ret_eq_some {r : Int32} {body : Bytes} {es : List ServerEvent}
    (h : s.ret j job r body = some (some s', es)) :
    ¬ (job.req.hdr.proc = bindProc ∧ ¬ (r < 0) ∧ (r ≠ 0 ∨ body ≠ intBody s.nonce)) ∧ ¬ r < 0 ∧
      s' = s.setJob j { job with pc := .reply ⟨⟨job.req.hdr.xid, r⟩, body⟩ } ∧
      es = [.produced job.req r body] := by
  simp only [ret] at h
  split at h
  · cases h
  · rename_i hbind
    split at h
    · cases h
    · rename_i hr
      cases h
      exact ⟨hbind, hr, rfl, rfl⟩

theorem addReply_eq_some (h : s.addReply j job b = some s') :
    (job.req.hdr.cltNonce = 0 ∧ s' = s.setJob j { job with pc := .choose b }) ∨
    (job.req.hdr.cltNonce ≠ 0 ∧ s.replyWindow job.req.hdr.cltNonce ≠ [] ∧
      s' = { s with
        replyWindow := Function.update s.replyWindow job.req.hdr.cltNonce
          (Rpc.addReply job.req.hdr.xid b (s.replyWindow job.req.hdr.cltNonce))
      }.setJob j { job with pc := .choose b }) := by
  simp only [addReply] at h
  split at h
  · rename_i hclt
    cases h
    exact .inl ⟨hclt, rfl⟩
  · rename_i hclt
    split at h
    · cases h
    · rename_i hw
      cases h
      exact .inr ⟨hclt, hw, rfl⟩

/-- Another connection is taken, or the job's own. -/
theorem choose_eq_some {dead : Bool} (h : s.choose j job b dead = some s') :
    (∃ c, dead = true ∧ c ≠ job.conn ∧ s.conns job.req.hdr.cltNonce = some c ∧
      s' = s.setJob j { job with conn := c, pc := .send b }) ∨
    (¬ (dead = true ∧ s.conns job.req.hdr.cltNonce ≠ some job.conn) ∧
      s' = s.setJob j { job with pc := .send b }) := by
  simp only [choose] at h
  split at h
  · rename_i hdead
    obtain ⟨c, hc, rfl⟩ := Option.map_eq_some_iff.mp h
    refine .inl ⟨c, hdead.1, ?_, hc, rfl⟩
    rintro rfl
    exact hdead.2 hc
  · rename_i hown
    cases h
    exact .inr ⟨hown, rfl⟩

end

/-- An instance keeps its nonce. -/
theorem Step.nonce {s s' : Rpcs} {a : ServerAction} {es : List ServerEvent}
    (h : s.Step a (some s') es) : s'.nonce = s.nonce := by
  generalize ho : some s' = o at h
  cases h with
  | header =>
      obtain ⟨rfl, -⟩ | ⟨-, -, rfl, -⟩ := header_eq_some ho.symm
      · rfl
      · rfl
  | check =>
      obtain ⟨-, r, -, rfl⟩ := check_eq_some ho.symm
      rfl
  | @ret _ _ _ _ o _ _ hr =>
      obtain ⟨o, es⟩ := o
      subst ho
      obtain ⟨-, -, rfl, -⟩ := ret_eq_some hr
      rfl
  | addReply =>
      obtain ⟨-, rfl⟩ | ⟨-, -, rfl⟩ := addReply_eq_some ho.symm
      · rfl
      · rfl
  | choose =>
      obtain ⟨c, -, -, -, rfl⟩ | ⟨-, rfl⟩ := choose_eq_some ho.symm
      · rfl
      · rfl
  | _ =>
      cases ho
      rfl

/-- Requests come in through `got_pdu`. -/
theorem Step.received {s : Rpcs} {o : Option Rpcs} {a : ServerAction} {es : List ServerEvent}
    (h : s.Step a o es) {c : Conn} {req : Request} (hr : .received c req ∈ es) :
    a = .gotPdu c req := by
  cases h with
  | gotPdu => simp_all
  | header =>
      revert hr
      simp only [Rpcs.header]
      split
      · simp
      · split <;> simp
  | ret _ _ hret =>
      simp only [Rpcs.ret] at hret
      split at hret
      · cases hret
      · split at hret <;> cases hret <;> simp at hr
  | _ => simp at hr

end Rpcs

end Yfs.Rpc
