import Yfs.Lib.System
import Yfs.Rpc.Server
import Yfs.Wire.Decode

/-!
# A server with its handlers

`Rpcs` leaves open what a request is and what a handler returns. Here requests are PDUs, any strings
of at most MAX_PDU bytes, and each procedure has a `Handler`, which unmarshalls its arguments and
calls its method. `none` in place of the next state again says that the process has aborted.
-/

namespace Yfs.Rpc

open Yfs.Lib
open Yfs.Wire (Ty Item fn maxPdu rpcHeaderSz unpack)

/-- A handler made by `rpcs::reg`. -/
structure Handler where
  args : List Ty
  /-- The status and the result of the method. They need not depend on the arguments alone: all else
  is in the number. -/
  meth : List Item → Nat → Int32 × Bytes
  ne : args ≠ []
  isArg : ∀ t ∈ args, t.isArg = true

/-- `rpcs::rpcbind`. -/
def rpcbind (nonce : UInt32) : Handler where
  args := [.int]
  meth _ _ := (0, intBody nonce)
  ne := by simp
  isArg := by simp [Ty.isArg]

/-- What `dispatch` unpacks from a PDU, and whether that has worked. -/
def unpackReq (p : Bytes) : Request × Bool :=
  match unpack .req (.new p) with
  | some (.req h, u) => (⟨h, p.drop rpcHeaderSz⟩, u.ok)
  | _ => (⟨⟨0, 0, 0, 0, 0⟩, []⟩, false)

/-- A server instance, with the PDU of each job. -/
structure Server where
  rpcs : Rpcs
  pdus : List Bytes

/-- The sections of `dispatch`. -/
inductive JobAction where
  | header
  | saveConn (older : Bool)
  | check
  | call
  | ret (k : Nat)
  | addReply
  | choose (dead : Bool)
  | send
  deriving DecidableEq, Repr

inductive DispatchAction where
  | gotPdu (c : Conn) (p : Bytes)
  | job (j : Nat) (a : JobAction)

namespace Server

def new (nonce : UInt32) (procs : List UInt32) : Server := ⟨.new nonce procs, []⟩

/-- `procs_[proc]`. -/
def handler (H : UInt32 → Handler) (s : Server) (proc : UInt32) : Handler :=
  if proc = bindProc then rpcbind s.rpcs.nonce else H proc

/-- `rpcs::got_pdu`, when the server is reachable and the queue has room. -/
def gotPdu (s : Server) (c : Conn) (p : Bytes) : Server where
  rpcs := { s.rpcs with jobs := s.rpcs.jobs ++ [⟨c, (unpackReq p).1, .arrived⟩] }
  pdus := s.pdus ++ [p]

/-- What a step of the instance is for job `j`. -/
def lift (s : Server) (j : Nat) (o : Option (Option Rpcs × List ServerEvent)) :
    Option (Option Server × List (Nat × ServerEvent)) :=
  o.map fun r => (r.1.map fun rpcs => { s with rpcs }, r.2.map (j, ·))

/-- One section of `dispatch` for job `j`. -/
def job (H : UInt32 → Handler) (s : Server) (j : Nat) :
    JobAction → Option (Option Server × List (Nat × ServerEvent))
  | .header => do
      let job ← s.rpcs.jobs[j]?
      let p ← s.pdus[j]?
      if job.pc = .arrived ∧ (unpackReq p).2 = false then
        return (some { s with rpcs := s.rpcs.setJob j { job with pc := .finished } }, [])
      else s.lift j (s.rpcs.step (.header j))
  | .saveConn older => s.lift j (s.rpcs.step (.saveConn j older))
  | .check => s.lift j (s.rpcs.step (.check j))
  | .call => s.lift j (s.rpcs.step (.call j))
  | .ret k => do
      let job ← s.rpcs.jobs[j]?
      let p ← s.pdus[j]?
      let .running := job.pc | none
      let h := s.handler H job.req.hdr.proc
      match fn h.args (fun vs => (h.meth vs k).1) (Wire.args p) with
      | some r =>
          s.lift j (s.rpcs.step (.ret j r.ret (r.called.elim [] fun vs => (h.meth vs k).2)))
      -- a byte outside of the message is read
      | none => return (none, [])
  | .addReply => s.lift j (s.rpcs.step (.addReply j))
  | .choose dead => s.lift j (s.rpcs.step (.choose j dead))
  | .send => s.lift j (s.rpcs.step (.send j))

def next (H : UInt32 → Handler) (s : Server) :
    DispatchAction → Option (Option Server × List (Nat × ServerEvent))
  | .gotPdu c p =>
      if p.length ≤ maxPdu then
        some (some (s.gotPdu c p), [(s.rpcs.jobs.length, .received c (unpackReq p).1)])
      else none
  | .job j a => s.job H j a

end Server

/-- The server from the state `s` on. -/
def serverSystem (H : UInt32 → Handler) (s : Server) :
    System (Option Server) DispatchAction (Nat × ServerEvent) where
  init o := o = some s
  next o a := o.bind fun s => s.next H a

/-! ## Sections of a job -/

section
variable {s : Server} {u v : Rpcs} {j : Nat} {job job' : Job}

/-- The job is where it was put. -/
theorem Rpcs.get_setJob (hj : u.jobs[j]? = some job) (hv : v.jobs = u.jobs) :
    (v.setJob j job').jobs[j]? = some job' := by
  show (v.jobs.set j job')[j]? = _
  rw [hv, List.getElem?_set_self (List.getElem?_eq_some_iff.mp hj).1]

/-- A lifted step is a step of the instance. -/
theorem Server.lift_inv {sa : ServerAction} {o : Option Server} {es : List (Nat × ServerEvent)}
    (hn : s.lift j (s.rpcs.step sa) = some (o, es)) :
    ∃ o' es', s.rpcs.Step sa o' es' ∧ (o = o'.map fun rpcs => { s with rpcs }) ∧
      es = es'.map (j, ·) := by
  obtain ⟨⟨o', es'⟩, hstep, heq⟩ := Option.map_eq_some_iff.mp hn
  obtain ⟨rfl, rfl⟩ := Prod.ext_iff.mp heq
  exact ⟨o', es', Rpcs.step_inv hstep, rfl, rfl⟩

end

/-! ## A small server -/

/-- A handler that takes an `int` and returns OK. -/
def okHandler : Handler where
  args := [.int]
  meth _ _ := (0, [])
  ne := by simp
  isArg := by simp [Ty.isArg]

/-- A call of procedure `proc` with one `int`, as client 7 sends it to the server with the nonce
`srv`. -/
def intCall (srv proc : UInt8) : Bytes :=
  [0, 0, 0, 28, 0, 0, 0, 2, 0, 0, 0, proc, 0, 0, 0, 7, 0, 0, 0, srv, 0, 0, 0, 1, 0, 0, 0, 4]

end Yfs.Rpc
