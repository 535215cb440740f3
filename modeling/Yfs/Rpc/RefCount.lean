import Mathlib.Algebra.Ring.Int.Defs
import Mathlib.Data.FinEnum
import Yfs.Lib.Refs
import Yfs.Rpc.Dispatch

/-!
# The reference counts of connections

A server deletes a connection when it is dead and its count has come to 0. The listener has one
reference to each connection, each job has one, and each entry of `conns_` has one. `Counted` adds the
counts to a `Server`: what `got_pdu` and the sections of `dispatch` do to them.

They do not always balance. A request for an old instance is answered without a `decref`, and its
reference is lost. And `got_pdu` looks at `reachable_` once more after it has queued the job: if the
server has become unreachable meanwhile it drops the reference that the job is going to drop, and
deletes the job, which a worker uses and deletes as well. `refno_balanced_iff` says that there is
nothing else.

A run ends where memory is used that was freed, or where a count would become negative
(`RefEvent.undefined`), and where the process aborts.
-/

namespace Yfs.Rpc

open Yfs.Lib
open Yfs.Wire (maxPdu)

/-- A server with the reference counts of its connections. -/
structure Counted where
  srv : Server
  reachable : Bool
  refno : Conn → Int
  dead : Conn → Bool
  /-- The connections that the listener has. -/
  listed : Conn → Bool
  deleted : Conn → Bool
  /-- The connection and the job that `got_pdu` is about, between `addObjJob` and its second look at
  `reachable_`. -/
  adding : Option (Conn × Nat)
  /-- The jobs in the queue that `got_pdu` has deleted. -/
  freed : Nat → Bool

inductive RefAction where
  /-- `got_pdu`, up to `addObjJob`, which fails if the queue is `full`. -/
  | gotPdu (c : Conn) (p : Bytes) (full : Bool)
  /-- The rest of `got_pdu`. -/
  | added
  | setReachable (r : Bool)
  | closeconn (c : Conn)
  /-- `process_accept` collects a dead connection. -/
  | collect (c : Conn)
  | job (j : Nat) (a : JobAction)

/-- What happens to the reference of a job. -/
inductive RefEvent where
  /-- `dispatch` drops it. -/
  | dropped (j : Nat) (c : Conn)
  /-- `dispatch` returns and does not drop it. -/
  | leaked (j : Nat) (c : Conn)
  /-- `got_pdu` drops it, though the job was queued. -/
  | doubled (j : Nat) (c : Conn)
  /-- The run ends with a use of freed memory, or a negative count. -/
  | undefined
  deriving DecidableEq, Repr

/-- A call of `incref` or `decref`. -/
inductive RefOp where
  | inc (c : Conn)
  | dec (c : Conn)
  deriving DecidableEq, Repr

namespace Counted

def new (nonce : UInt32) (procs : List UInt32) : Counted where
  srv := .new nonce procs
  reachable := true
  refno _ := 1
  dead _ := false
  listed _ := true
  deleted _ := false
  adding := none
  freed _ := false

/-- `connection::incref` and `connection::decref`. `none` if the connection was deleted before, or the
count becomes negative. -/
def apply (s : Counted) : RefOp → Option Counted
  | .inc c =>
      if s.deleted c then none
      else some { s with refno := Function.update s.refno c (s.refno c + 1) }
  | .dec c =>
      if s.deleted c ∨ s.refno c - 1 < 0 then none
      else some { s with
        refno := Function.update s.refno c (s.refno c - 1)
        deleted :=
          if s.refno c - 1 = 0 ∧ s.dead c then Function.update s.deleted c true else s.deleted }

/-- The request is for an old instance. -/
def oldServer (s : Rpcs) (h : ReqHeader) : Bool := h.srvNonce ≠ 0 && h.srvNonce ≠ s.nonce

/-- What a section of `dispatch` does to the reference counts. -/
def refOps (s : Rpcs) (job : Job) (p : Bytes) : JobAction → List RefOp
  | .header => if (unpackReq p).2 = false then [.dec job.conn] else []
  | .saveConn older =>
      match s.conns job.req.hdr.cltNonce with
      | none => [.inc job.conn]
      | some c => if older then [.dec c, .inc job.conn] else []
  | .check =>
      let h := job.req.hdr
      let st := (checkduplicateAndUpdate (s.replyWindow h.cltNonce) h.xid h.xidRep).2
      -- nothing to send
      if Rpcs.afterCheck job.req st = .finished then [.dec job.conn] else []
  | .choose dead =>
      match s.conns job.req.hdr.cltNonce with
      | some c => if dead ∧ c ≠ job.conn then [.dec job.conn, .inc c] else []
      | none => []
  | .send => [.dec job.conn]
  | .call | .ret _ | .addReply => []

/-- What a section of `dispatch` does to the reference of its job. -/
def refEvents (s : Rpcs) (j : Nat) (job : Job) (p : Bytes) (a : JobAction) (srv : Server) :
    List RefEvent :=
  if srv.rpcs.jobs[j]?.any (·.pc = .finished) then
    if a = .header ∧ (unpackReq p).2 = true ∧ oldServer s job.req.hdr then [.leaked j job.conn]
    else [.dropped j job.conn]
  else []

/-- The state and the events after some calls of `incref` and `decref`. -/
def counted (o : Option Counted) (es : List RefEvent) : Option Counted × List RefEvent :=
  match o with
  | some s => (some s, es)
  | none => (none, es ++ [.undefined])

/-- The end of `got_pdu` where `reachable_` has changed: `c->decref()` and `delete j`. The job is still
in the queue, or `dispatch` has already deleted it. -/
def unreachable (s : Counted) (c : Conn) (j : Nat) : Option Counted := do
  let s ← s.apply (.dec c)
  if s.srv.rpcs.jobs[j]?.any (·.pc = .arrived) then
    some { s with freed := Function.update s.freed j true }
  else none

def next (H : UInt32 → Handler) (s : Counted) : RefAction → Option (Option Counted × List RefEvent)
  | .gotPdu c p full =>
      -- the poll thread calls `got_pdu`, for connections that are alive
      if s.adding = none ∧ s.dead c = false ∧ p.length ≤ maxPdu then
        -- without room in the queue the reference is dropped again at once
        if s.reachable ∧ full = false then
          some (counted (({ s with
            srv := s.srv.gotPdu c p
            adding := some (c, s.srv.rpcs.jobs.length) } : Counted).apply (.inc c)) [])
        else some (some s, [])
      else none
  | .added => do
      let (c, j) ← s.adding
      let s := { s with adding := none }
      if s.reachable then return (some s, [])
      else return counted (s.unreachable c j) [.doubled j c]
  | .setReachable r => some (some { s with reachable := r }, [])
  | .closeconn c =>
      -- `got_pdu` is called under the mutex of the connection
      if s.adding.any (·.1 = c) then none
      else some (some { s with dead := Function.update s.dead c true }, [])
  | .collect c =>
      if s.listed c ∧ s.dead c ∧ s.refno c = 1 then
        some (counted (({ s with listed := Function.update s.listed c false } : Counted).apply
          (.dec c)) [])
      else none
  | .job j a => do
      let job ← s.srv.rpcs.jobs[j]?
      let p ← s.srv.pdus[j]?
      -- `dispatch` reads and deletes its job
      if s.freed j then return (none, [.undefined])
      if ∀ d, a = .choose d → d = s.dead job.conn then
        match ← s.srv.job H j a with
        | (some srv, _) =>
            return counted ((refOps s.srv.rpcs job p a).foldlM apply { s with srv })
              (refEvents s.srv.rpcs j job p a srv)
        | (none, _) => return (none, [])
      else none

end Counted

/-- The server with its counts. -/
def countedSystem (H : UInt32 → Handler) (nonce : UInt32) (procs : List UInt32) :
    System (Option Counted) RefAction RefEvent where
  init o := o = some (.new nonce procs)
  next o a := o.bind fun s => s.next H a

/-! ## What is counted -/

/-- A job that is queued or running and has a reference to `c`. -/
def Job.holds (c : Conn) (job : Job) : Bool := job.pc ≠ .finished && job.conn = c

/-- The jobs with a reference to `c`. -/
def holders (s : Rpcs) (c : Conn) : Nat := s.jobs.countP (Job.holds c)

/-- The entries of `conns_` that point to `c`. -/
def entries (s : Rpcs) (c : Conn) : Nat := entriesTo s.conns c

/-- The references to `c` that were leaked. -/
def leaks (c : Conn) (τ : List RefEvent) : Nat :=
  τ.countP fun e => match e with
    | .leaked _ c' => c' = c
    | _ => false

/-- The references to `c` that `got_pdu` dropped for a job. -/
def doubles (c : Conn) (τ : List RefEvent) : Nat :=
  τ.countP fun e => match e with
    | .doubled _ c' => c' = c
    | _ => false

/-- What some calls do to the count of `c`. -/
def netRef (c : Conn) (ops : List RefOp) : Int :=
  (ops.map fun op => match op with
    | .inc c' => if c' = c then 1 else 0
    | .dec c' => if c' = c then -1 else 0).sum

section
variable {H : UInt32 → Handler} {s s' : Server} {u : Rpcs} {j : Nat} {job job' : Job} {p : Bytes}
  {c : Conn}

/-- A job goes to another place, and perhaps takes another connection. -/
theorem holders_setJob (hj : u.jobs[j]? = some job) : holders (u.setJob j job') c +
    (if job.holds c = true then 1 else 0) = holders u c + if job'.holds c = true then 1 else 0 :=
  countP_set_add hj

/-- A section of job `j` changes what is held as it changes the count, but for what it leaks. -/
structure Balanced (s s' : Rpcs) (j : Nat) (job : Job) (p : Bytes) (a : JobAction) (srv : Server) :
    Prop where
  unfinished : job.pc ≠ .finished
  jobs : ∃ job', s'.jobs = s.jobs.set j job'
  count : ∀ c, (holders s' c + entries s' c + leaks c (Counted.refEvents s j job p a srv) : Int) =
    holders s c + entries s c + netRef c (Counted.refOps s job p a)

/-- What the section does to one connection: the job has a reference to `job'.conn` unless it is
finished, the table is `v.conns`, and `e` is leaked. -/
theorem balanced_setJob {v : Rpcs} {a : JobAction} (hj : s.rpcs.jobs[j]? = some job)
    (hpc : job.pc ≠ .finished) (hs' : s'.rpcs = v.setJob j job') (hv : v.jobs = s.rpcs.jobs)
    (hcount : ∀ c, ((if job'.holds c = true then 1 else 0) + entriesTo v.conns c +
        leaks c (Counted.refEvents s.rpcs j job p a s') : Int) =
      (if job.conn = c then 1 else 0) + entriesTo s.rpcs.conns c +
        netRef c (Counted.refOps s.rpcs job p a)) :
    Balanced s.rpcs s'.rpcs j job p a s' := by
  refine ⟨hpc, ⟨job', by rw [hs', ← hv]; rfl⟩, fun c => ?_⟩
  have hset : holders (v.setJob j job') c + (if job.holds c = true then 1 else 0) =
      holders v c + if job'.holds c = true then 1 else 0 := holders_setJob (hv ▸ hj)
  have hsame : holders v c = holders s.rpcs c := by
    unfold holders
    rw [hv]
  have hholds : job.holds c = true ↔ job.conn = c := by
    simp [Job.holds, hpc]
  have hc := hcount c
  rw [hs']
  show (holders (v.setJob j job') c + entriesTo v.conns c + _ : Int) = _
  unfold entries
  simp only [hholds] at hset
  split at hset <;> split at hset <;> simp_all <;> omega

/-- The event of a section by where the job is after it. -/
theorem refEvents_eq {a : JobAction} (hget : s'.rpcs.jobs[j]? = some job') :
    Counted.refEvents s.rpcs j job p a s' =
      if job'.pc = .finished then
        if a = .header ∧ (unpackReq p).2 = true ∧ Counted.oldServer s.rpcs job.req.hdr then
          [.leaked j job.conn]
        else [.dropped j job.conn]
      else [] := by
  simp [Counted.refEvents, hget]

/-- A section that leaves the references alone. -/
theorem balanced_stay {v : Rpcs} {a : JobAction} (hj : s.rpcs.jobs[j]? = some job)
    (hpc : job.pc ≠ .finished) (hs' : s'.rpcs = v.setJob j job') (hv : v.jobs = s.rpcs.jobs)
    (hconns : v.conns = s.rpcs.conns) (hpc' : job'.pc ≠ .finished) (hconn : job'.conn = job.conn)
    (hops : Counted.refOps s.rpcs job p a = []) : Balanced s.rpcs s'.rpcs j job p a s' := by
  refine balanced_setJob hj hpc hs' hv fun c => ?_
  have hget : s'.rpcs.jobs[j]? = some job' := by
    rw [hs']
    exact Rpcs.get_setJob hj hv
  rw [refEvents_eq hget, if_neg hpc', hops, hconns]
  simp [Job.holds, hpc', hconn, leaks, netRef]

/-- A section that finishes the job and drops its reference. -/
theorem balanced_drop {a : JobAction} {v : Rpcs} (hj : s.rpcs.jobs[j]? = some job)
    (hpc : job.pc ≠ .finished) (hs' : s'.rpcs = v.setJob j { job with pc := .finished })
    (hv : v.jobs = s.rpcs.jobs) (hconns : v.conns = s.rpcs.conns)
    (hold : ¬ (a = .header ∧ (unpackReq p).2 = true ∧ Counted.oldServer s.rpcs job.req.hdr = true))
    (hops : Counted.refOps s.rpcs job p a = [.dec job.conn]) :
    Balanced s.rpcs s'.rpcs j job p a s' := by
  refine balanced_setJob hj hpc hs' hv fun c => ?_
  have hget : s'.rpcs.jobs[j]? = some { job with pc := .finished } := by
    rw [hs']
    exact Rpcs.get_setJob hj hv
  rw [refEvents_eq hget, if_pos rfl, if_neg hold, hops, hconns]
  by_cases hc : job.conn = c <;> simp [Job.holds, leaks, netRef, hc]

theorem header_balanced {es : List (Nat × ServerEvent)}
    (hj : s.rpcs.jobs[j]? = some job) (hp : s.pdus[j]? = some p)
    (hn : s.job H j .header = some (some s', es)) : Balanced s.rpcs s'.rpcs j job p .header s' := by
  simp only [Server.job, hj, hp, Option.bind_eq_bind, Option.bind_some] at hn
  split at hn
  · rename_i hshort
    cases hn
    refine balanced_drop hj (by simp [hshort.1]) rfl rfl rfl (by simp [hshort.2]) ?_
    simp [Counted.refOps, hshort.2]
  · rename_i hlong
    simp only [Rpcs.step, hj, Option.bind_eq_bind, Option.bind_some] at hn
    split at hn
    · rename_i hpc
      have hok : (unpackReq p).2 = true := by simpa [hpc] using hlong
      have hops : Counted.refOps s.rpcs job p .header = [] := by simp [Counted.refOps, hok]
      simp only [Server.lift, Rpcs.header, Option.pure_def, Option.map_some, Option.some.injEq,
        Prod.mk.injEq] at hn
      obtain ⟨hs', -⟩ := hn
      split at hs'
      · -- for an old instance: the reference is lost
        rename_i hold
        cases hs'
        refine balanced_setJob hj (by simp [hpc]) rfl rfl fun c => ?_
        have hget : (s.rpcs.setJob j { job with pc := .finished }).jobs[j]? =
            some { job with pc := .finished } := Rpcs.get_setJob hj rfl
        have hold' : Counted.oldServer s.rpcs job.req.hdr = true := by
          simpa [Counted.oldServer] using hold
        rw [refEvents_eq hget, hops]
        by_cases hc : job.conn = c <;> simp [Job.holds, leaks, netRef, hc, hok, hold', add_comm]
      · split at hs'
        · cases hs'
        · cases hs'
          refine balanced_stay hj (by simp [hpc]) rfl rfl rfl ?_ rfl hops
          by_cases hclt : job.req.hdr.cltNonce = 0 <;> simp [hclt]
    · cases hn

theorem saveConn_balanced (hj : s.rpcs.jobs[j]? = some job) (hpc : job.pc = .save) (older : Bool)
    (hs' : s'.rpcs = s.rpcs.saveConn j job older) :
    Balanced s.rpcs s'.rpcs j job p (.saveConn older) s' := by
  have hne : job.pc ≠ .finished := by simp [hpc]
  unfold Rpcs.saveConn at hs'
  dsimp only at hs'
  by_cases hsave : s.rpcs.conns job.req.hdr.cltNonce = none ∨ older = true
  · rw [if_pos hsave] at hs'
    refine balanced_setJob hj hne hs' rfl fun c => ?_
    have hget : s'.rpcs.jobs[j]? = some { job with pc := .check } := by
      rw [hs']
      exact Rpcs.get_setJob hj rfl
    have hupdate := entriesTo_update (f := s.rpcs.conns) (i := job.req.hdr.cltNonce)
      (x := some job.conn) (c := c)
    have hev : leaks c (Counted.refEvents s.rpcs j job p (.saveConn older) s') = 0 := by
      rw [refEvents_eq hget]
      simp [leaks]
    rw [hev]
    simp only [Option.some.injEq] at hupdate
    show ((if Job.holds c { job with pc := .check } = true then 1 else 0) +
      entriesTo (Function.update s.rpcs.conns job.req.hdr.cltNonce (some job.conn)) c + _ : Int) = _
    cases hold : s.rpcs.conns job.req.hdr.cltNonce with
    | none =>
        rw [hold] at hupdate
        by_cases hc : job.conn = c <;> simp_all [Job.holds, Counted.refOps, netRef]
        omega
    | some c' =>
        have holder : older = true := hsave.resolve_left (by simp [hold])
        rw [hold] at hupdate
        by_cases hc : job.conn = c <;> by_cases hc' : c' = c <;>
          simp_all [Job.holds, Counted.refOps, netRef] <;> omega
  · rw [if_neg hsave] at hs'
    refine balanced_stay hj hne hs' rfl rfl (by simp) rfl ?_
    rw [not_or] at hsave
    obtain ⟨c, hc⟩ := Option.ne_none_iff_exists'.mp hsave.1
    simp [Counted.refOps, hc, hsave.2]

theorem check_balanced (hj : s.rpcs.jobs[j]? = some job) (hpc : job.pc = .check)
    (hs' : s.rpcs.check j job = some s'.rpcs) : Balanced s.rpcs s'.rpcs j job p .check s' := by
  have hne : job.pc ≠ .finished := by simp [hpc]
  obtain ⟨-, ⟨w, st⟩, hst, hs'⟩ := Rpcs.check_eq_some hs'
  by_cases hfin : Rpcs.afterCheck job.req st = .finished
  · simp only [hfin] at hs'
    refine balanced_drop hj hne hs' rfl rfl (by simp) ?_
    simp [Counted.refOps, hst, hfin]
  · refine balanced_stay hj hne hs' rfl rfl hfin rfl ?_
    simp [Counted.refOps, hst, hfin]

theorem choose_balanced {b : Reply} (hj : s.rpcs.jobs[j]? = some job) (hpc : job.pc = .choose b)
    (dead : Bool) (hs' : s.rpcs.choose j job b dead = some s'.rpcs) :
    Balanced s.rpcs s'.rpcs j job p (.choose dead) s' := by
  have hne : job.pc ≠ .finished := by simp [hpc]
  obtain ⟨c', hdead, hne', hc', hs'⟩ | ⟨hstay, hs'⟩ := Rpcs.choose_eq_some hs'
  · refine balanced_setJob hj hne hs' rfl fun c => ?_
    have hget : s'.rpcs.jobs[j]? = some { job with conn := c', pc := .send b } := by
      rw [hs']
      exact Rpcs.get_setJob hj rfl
    rw [refEvents_eq hget]
    by_cases hc : job.conn = c <;> by_cases hcc : c' = c <;>
      simp_all [Job.holds, Counted.refOps, netRef, leaks]
    omega
  · refine balanced_stay hj hne hs' rfl rfl (by simp) rfl ?_
    cases hc : s.rpcs.conns job.req.hdr.cltNonce with
    | none => simp [Counted.refOps, hc]
    | some c =>
        simp only [Counted.refOps, hc]
        rw [if_neg]
        rintro ⟨hd, hne'⟩
        exact hstay ⟨hd, by simpa [hc] using hne'⟩

theorem lift_inv {sa : ServerAction} {es : List (Nat × ServerEvent)}
    (hn : s.lift j (s.rpcs.step sa) = some (some s', es)) :
    ∃ es', s.rpcs.Step sa (some s'.rpcs) es' := by
  obtain ⟨o, es', hst, ho, -⟩ := Server.lift_inv hn
  obtain ⟨rpcs, rfl, rfl⟩ := Option.map_eq_some_iff.mp ho.symm
  exact ⟨es', hst⟩

theorem job_balanced {a : JobAction} {es : List (Nat × ServerEvent)}
    (hj : s.rpcs.jobs[j]? = some job) (hp : s.pdus[j]? = some p)
    (hn : s.job H j a = some (some s', es)) : Balanced s.rpcs s'.rpcs j job p a s' := by
  have hsame : ∀ {job' : Job}, s.rpcs.jobs[j]? = some job' → job' = job := by
    intro job' hj'
    exact Option.some.inj (hj'.symm.trans hj)
  cases a with
  | header => exact header_balanced hj hp hn
  | saveConn older =>
      obtain ⟨es', hst⟩ := lift_inv hn
      generalize ho : some s'.rpcs = o at hst
      cases hst with
      | saveConn hj' hpc =>
          obtain rfl := hsame hj'
          exact saveConn_balanced hj hpc older (Option.some.inj ho)
  | check =>
      obtain ⟨es', hst⟩ := lift_inv hn
      generalize ho : some s'.rpcs = o at hst
      cases hst with
      | check hj' hpc =>
          obtain rfl := hsame hj'
          exact check_balanced hj hpc ho.symm
  | call =>
      obtain ⟨es', hst⟩ := lift_inv hn
      generalize ho : some s'.rpcs = o at hst
      cases hst with
      | call hj' hpc =>
          obtain rfl := hsame hj'
          exact balanced_stay hj (by simp [hpc]) (Option.some.inj ho) rfl rfl (by simp) rfl rfl
  | ret k =>
      simp only [Server.job, hj, hp, Option.bind_eq_bind, Option.bind_some] at hn
      split at hn
      · split at hn
        · obtain ⟨es', hst⟩ := lift_inv hn
          generalize ho : some s'.rpcs = o at hst
          cases hst with
          | @ret _ _ _ _ o hj' hpc hr =>
              obtain rfl := hsame hj'
              obtain ⟨o, es⟩ := o
              subst ho
              obtain ⟨-, -, hs', -⟩ := Rpcs.ret_eq_some hr
              exact balanced_stay hj (by simp [hpc]) hs' rfl rfl (by simp) rfl rfl
        · cases hn
      · cases hn
  | addReply =>
      obtain ⟨es', hst⟩ := lift_inv hn
      generalize ho : some s'.rpcs = o at hst
      cases hst with
      | addReply hj' hpc =>
          obtain rfl := hsame hj'
          obtain ⟨-, hs'⟩ | ⟨-, -, hs'⟩ := Rpcs.addReply_eq_some ho.symm
          · exact balanced_stay hj (by simp [hpc]) hs' rfl rfl (by simp) rfl rfl
          · exact balanced_stay hj (by simp [hpc]) hs' rfl rfl (by simp) rfl rfl
  | choose dead =>
      obtain ⟨es', hst⟩ := lift_inv hn
      generalize ho : some s'.rpcs = o at hst
      cases hst with
      | choose hj' hpc =>
          obtain rfl := hsame hj'
          exact choose_balanced hj hpc dead ho.symm
  | send =>
      obtain ⟨es', hst⟩ := lift_inv hn
      generalize ho : some s'.rpcs = o at hst
      cases hst with
      | send hj' hpc =>
          obtain rfl := hsame hj'
          exact balanced_drop hj (by simp [hpc]) (Option.some.inj ho) rfl rfl (by simp) rfl

end

/-! ## The counts -/

namespace Counted

/-- The calls of `incref` and `decref` change the counts and nothing else, and a deleted connection
keeps its count. -/
structure Applied (s s' : Counted) (ops : List RefOp) : Prop where
  srv : s'.srv = s.srv
  listed : s'.listed = s.listed
  dead : s'.dead = s.dead
  freed : s'.freed = s.freed
  refno : ∀ c, s'.refno c = s.refno c + netRef c ops
  deleted : (∀ c, s.deleted c = true → s.refno c = 0 ∧ s.dead c = true) →
    ∀ c, s'.deleted c = true → s'.refno c = 0 ∧ s'.dead c = true

variable {s s' : Counted} {op : RefOp} {ops : List RefOp} {c : Conn}

theorem apply_applied (h : s.apply op = some s') : Applied s s' [op] := by
  cases op with
  | inc c =>
      unfold apply at h
      dsimp only at h
      split at h
      · cases h
      · rename_i hdel
        cases h
        refine ⟨rfl, rfl, rfl, rfl, fun c' => ?_, fun hok c' hc' => ?_⟩
        · by_cases hc : c' = c
          · subst hc
            simp [netRef]
          · simp [netRef, hc, Ne.symm hc]
        · have hne : c' ≠ c := by
            rintro rfl
            exact hdel hc'
          show Function.update s.refno c _ c' = 0 ∧ _
          rw [Function.update_of_ne hne]
          exact hok c' hc'
  | dec c =>
      unfold apply at h
      dsimp only at h
      split at h
      · cases h
      · rename_i hdel
        rw [not_or] at hdel
        cases h
        refine ⟨rfl, rfl, rfl, rfl, fun c' => ?_, fun hok c' hc' => ?_⟩
        · by_cases hc : c' = c
          · subst hc
            simp [netRef]
            omega
          · simp [netRef, hc, Ne.symm hc]
        · show Function.update s.refno c _ c' = 0 ∧ _
          by_cases hc : c' = c
          · subst hc
            rw [Function.update_self]
            change (if _ then _ else _ : Conn → Bool) c' = true at hc'
            split at hc'
            · rename_i hzero
              exact hzero
            · exact absurd hc' hdel.1
          · rw [Function.update_of_ne hc]
            refine hok c' ?_
            change (if _ then _ else _ : Conn → Bool) c' = true at hc'
            split at hc'
            · rwa [Function.update_of_ne hc] at hc'
            · exact hc'

theorem foldlM_applied (h : ops.foldlM apply s = some s') : Applied s s' ops := by
  induction ops generalizing s with
  | nil =>
      cases h
      exact ⟨rfl, rfl, rfl, rfl, fun c => by simp [netRef], id⟩
  | cons op ops ih =>
      rw [List.foldlM_cons] at h
      obtain ⟨s₁, hop, hrest⟩ := Option.bind_eq_some_iff.mp h
      have h₁ := apply_applied hop
      have h₂ := ih hrest
      refine ⟨h₂.srv.trans h₁.srv, h₂.listed.trans h₁.listed, h₂.dead.trans h₁.dead,
        h₂.freed.trans h₁.freed, fun c => ?_, fun hok => h₂.deleted (h₁.deleted hok)⟩
      rw [h₂.refno, h₁.refno]
      simp [netRef]
      omega

end Counted

/-- How often the reference of job `j` was dropped, by `dispatch` or by `got_pdu`. -/
def drops (j : Nat) (τ : List RefEvent) : Nat :=
  τ.countP fun e => match e with
    | .dropped j' _ | .doubled j' _ => j' = j
    | _ => false

/-- How often `dispatch` did not drop the reference of job `j`. -/
def leaksOf (j : Nat) (τ : List RefEvent) : Nat :=
  τ.countP fun e => match e with
    | .leaked j' _ => j' = j
    | _ => false

/-- How often `got_pdu` dropped the reference of job `j`. -/
def doublesOf (j : Nat) (τ : List RefEvent) : Nat :=
  τ.countP fun e => match e with
    | .doubled j' _ => j' = j
    | _ => false

/-- The job has come to its end. -/
def Rpcs.done (s : Rpcs) (j : Nat) : Bool := s.jobs[j]?.any (·.pc = .finished)

/-- What holds of the counts at any time. -/
structure Counted.Ok (τ : List RefEvent) (s : Counted) : Prop where
  balance : ∀ c, s.refno c + doubles c τ =
    (if s.listed c then 1 else 0) + holders s.srv.rpcs c + entries s.srv.rpcs c + leaks c τ
  deleted : ∀ c, s.deleted c = true → s.refno c = 0 ∧ s.dead c = true
  /-- A job that `got_pdu` has deleted is in the queue. -/
  freed : ∀ j, doublesOf j τ ≠ 0 ↔ s.freed j = true
  waiting : ∀ j, s.freed j = true → s.srv.rpcs.done j = false
  ends : ∀ j, drops j τ + leaksOf j τ = doublesOf j τ + if s.srv.rpcs.done j then 1 else 0

section
variable {H : UInt32 → Handler} {s s' : Counted} {τ es : List RefEvent} {c : Conn}

theorem leaks_append (c : Conn) (τ es : List RefEvent) :
    leaks c (τ ++ es) = leaks c τ + leaks c es := List.countP_append

theorem doubles_append (c : Conn) (τ es : List RefEvent) :
    doubles c (τ ++ es) = doubles c τ + doubles c es := List.countP_append

theorem drops_append (j : Nat) (τ es : List RefEvent) :
    drops j (τ ++ es) = drops j τ + drops j es := List.countP_append

theorem leaksOf_append (j : Nat) (τ es : List RefEvent) :
    leaksOf j (τ ++ es) = leaksOf j τ + leaksOf j es := List.countP_append

theorem doublesOf_append (j : Nat) (τ es : List RefEvent) :
    doublesOf j (τ ++ es) = doublesOf j τ + doublesOf j es := List.countP_append

namespace Counted.Ok

/-- The events of a section are about its job, and one of them ends it. -/
theorem refEvents_ends (u : Rpcs) (j : Nat) (job : Job) (p : Bytes) (a : JobAction) (srv : Server)
    (i : Nat) :
    drops i (refEvents u j job p a srv) + leaksOf i (refEvents u j job p a srv) =
        (if i = j ∧ srv.rpcs.done j then 1 else 0) ∧
      doublesOf i (refEvents u j job p a srv) = 0 ∧
      ∀ c, doubles c (refEvents u j job p a srv) = 0 := by
  unfold refEvents Rpcs.done
  by_cases hdone : srv.rpcs.jobs[j]?.any (·.pc = .finished) = true
  · rw [if_pos hdone]
    by_cases hij : i = j
    · subst hij
      split <;> simp [drops, leaksOf, doublesOf, doubles, hdone]
    · split <;> simp [drops, leaksOf, doublesOf, doubles, hij, Ne.symm hij]
  · rw [if_neg hdone]
    simp [drops, leaksOf, doublesOf, doubles, hdone]

/-- A job that is not in the section stays as it is. -/
theorem done_of_ne {u v : Rpcs} {i j : Nat} {job' : Job} (hjobs : v.jobs = u.jobs.set j job')
    (hij : i ≠ j) : v.done i = u.done i := by
  unfold Rpcs.done
  rw [hjobs, List.getElem?_set_ne (Ne.symm hij)]

/-- A new job is not done. -/
theorem done_gotPdu (srv : Server) (c : Conn) (p : Bytes) (i : Nat) :
    (srv.gotPdu c p).rpcs.done i = srv.rpcs.done i := by
  show ((srv.rpcs.jobs ++ _)[i]?).any _ = _
  rw [List.getElem?_append]
  split
  · rfl
  · rename_i hge
    rw [Rpcs.done, List.getElem?_eq_none (Nat.le_of_not_lt hge)]
    by_cases hi : i = srv.rpcs.jobs.length
    · simp [hi]
    · rw [List.getElem?_eq_none (by simp; omega)]

/-- A section of `dispatch`. -/
theorem job (h : Ok τ s) {j : Nat} {job : Job} {p : Bytes} {a : JobAction} {srv : Server}
    (hb : Balanced s.srv.rpcs srv.rpcs j job p a srv) (hj : s.srv.rpcs.jobs[j]? = some job)
    (hfreed : s.freed j = false) (happ : Applied { s with srv } s' (refOps s.srv.rpcs job p a)) :
    Ok (τ ++ refEvents s.srv.rpcs j job p a srv) s' := by
  have hsrv : s'.srv = srv := happ.srv
  have hsame : s'.freed = s.freed := happ.freed
  obtain ⟨job', hjobs⟩ := hb.jobs
  constructor
  case balance =>
    intro c
    have hbal := h.balance c
    have hcount := hb.count c
    have href : s'.refno c = s.refno c + netRef c (refOps s.srv.rpcs job p a) := happ.refno c
    have hlisted : s'.listed = s.listed := happ.listed
    rw [doubles_append, leaks_append, (refEvents_ends _ _ _ _ _ _ c).2.2 c, hsrv, hlisted, href]
    push_cast
    omega
  case deleted => exact happ.deleted h.deleted
  case freed =>
    intro i
    rw [doublesOf_append, (refEvents_ends _ _ _ _ _ _ i).2.1, Nat.add_zero, hsame]
    exact h.freed i
  case waiting =>
    intro i hi
    rw [hsame] at hi
    have hij : i ≠ j := by
      rintro rfl
      exact Bool.false_ne_true (hfreed.symm.trans hi)
    rw [hsrv, done_of_ne hjobs hij]
    exact h.waiting i hi
  case ends =>
    intro i
    have hold := h.ends i
    obtain ⟨hends, hdoubles, -⟩ := refEvents_ends s.srv.rpcs j job p a srv i
    rw [drops_append, leaksOf_append, doublesOf_append, hdoubles, hsrv]
    by_cases hij : i = j
    · subst hij
      have hnot : s.srv.rpcs.done i = false := by
        simp [Rpcs.done, hj, hb.unfinished]
      simp only [hnot, true_and, Bool.false_eq_true, if_false] at hold hends
      omega
    · simp only [hij, false_and, if_false] at hends
      rw [done_of_ne hjobs hij]
      omega

/-- A PDU is queued. -/
theorem gotPdu (h : Ok τ s) {p : Bytes} {adding : Option (Conn × Nat)}
    (happ : Applied { s with srv := s.srv.gotPdu c p, adding } s' [.inc c]) : Ok τ s' := by
  have hsrv : s'.srv = s.srv.gotPdu c p := happ.srv
  have hlisted : s'.listed = s.listed := happ.listed
  have hsame : s'.freed = s.freed := happ.freed
  constructor
  case balance =>
    intro c'
    have hbal := h.balance c'
    have href : s'.refno c' = s.refno c' + netRef c' [.inc c] := happ.refno c'
    have hholders : holders (s.srv.gotPdu c p).rpcs c' =
        holders s.srv.rpcs c' + if c = c' then 1 else 0 := by
      show (s.srv.rpcs.jobs ++ _).countP _ = _
      rw [List.countP_append]
      by_cases hc : c = c' <;> simp [holders, Job.holds, hc]
    have hentries : entries (s.srv.gotPdu c p).rpcs c' = entries s.srv.rpcs c' := rfl
    rw [hsrv, hlisted, href, hholders, hentries]
    by_cases hc : c = c' <;> simp [netRef, hc] at hbal ⊢ <;> omega
  case deleted => exact happ.deleted h.deleted
  case freed =>
    rw [hsame]
    exact h.freed
  case waiting =>
    intro i hi
    rw [hsame] at hi
    rw [hsrv, done_gotPdu]
    exact h.waiting i hi
  case ends =>
    intro i
    rw [hsrv, done_gotPdu]
    exact h.ends i

/-- `got_pdu` drops the reference of a job that is in the queue. -/
theorem doubled (h : Ok τ s) {adding : Option (Conn × Nat)} {j : Nat}
    (hn : ({ s with adding } : Counted).unreachable c j = some s') : Ok (τ ++ [.doubled j c]) s' := by
  simp only [unreachable, Option.bind_eq_bind, Option.bind_eq_some_iff] at hn
  obtain ⟨s₁, happly, hn⟩ := hn
  have happ := apply_applied happly
  have hsrv : s₁.srv = s.srv := happ.srv
  have hlisted : s₁.listed = s.listed := happ.listed
  have hsame : s₁.freed = s.freed := happ.freed
  split at hn
  case isFalse => cases hn
  case isTrue harrived =>
    cases hn
    constructor
    case balance =>
      intro c'
      have hbal := h.balance c'
      have href : s₁.refno c' = s.refno c' + netRef c' [.dec c] := happ.refno c'
      show s₁.refno c' + _ = (if s₁.listed c' then 1 else 0) + _ + _ + _
      rw [hsrv, hlisted, href, doubles_append, leaks_append]
      by_cases hc : c = c' <;> simp [netRef, hc, doubles, leaks] at hbal ⊢ <;> omega
    case deleted => exact happ.deleted h.deleted
    case freed =>
      intro i
      show _ ↔ Function.update s₁.freed j true i = true
      have hold := h.freed i
      rw [doublesOf_append, hsame]
      by_cases hi : i = j
      · subst hi
        simp [doublesOf]
      · rw [Function.update_of_ne hi, ← hold]
        simp [doublesOf, Ne.symm hi]
    case waiting =>
      intro i hi
      change Function.update s₁.freed j true i = true at hi
      show s₁.srv.rpcs.done i = false
      by_cases hij : i = j
      · subst hij
        obtain ⟨job, hjob, hpc⟩ := Option.any_eq_true _ _ |>.mp harrived
        simp_all [Rpcs.done]
      · rw [Function.update_of_ne hij, hsame] at hi
        rw [hsrv]
        exact h.waiting i hi
    case ends =>
      intro i
      have hold := h.ends i
      show _ = _ + if s₁.srv.rpcs.done i then 1 else 0
      rw [hsrv, drops_append, leaksOf_append, doublesOf_append]
      by_cases hi : j = i <;> simp [drops, leaksOf, doublesOf, hi] at hold ⊢ <;> omega

/-- The listener gives its reference back. -/
theorem collect (h : Ok τ s) (hlist : s.listed c = true)
    (happ : Applied { s with listed := Function.update s.listed c false } s' [.dec c]) : Ok τ s' := by
  have hsrv : s'.srv = s.srv := happ.srv
  have hlisted : s'.listed = Function.update s.listed c false := happ.listed
  have hsame : s'.freed = s.freed := happ.freed
  constructor
  case balance =>
    intro c'
    have hbal := h.balance c'
    have href : s'.refno c' = s.refno c' + netRef c' [.dec c] := happ.refno c'
    rw [hsrv, hlisted, href]
    by_cases hc : c' = c
    · subst hc
      simp [netRef, hlist] at hbal ⊢
      omega
    · simp [netRef, hc, Ne.symm hc] at hbal ⊢
      omega
  case deleted => exact happ.deleted h.deleted
  case freed =>
    rw [hsame]
    exact h.freed
  case waiting =>
    rw [hsame, hsrv]
    exact h.waiting
  case ends =>
    rw [hsrv]
    exact h.ends

theorem counted_eq_some {o : Option Counted} {es' : List RefEvent}
    (h : counted o es = (some s', es')) : o = some s' ∧ es' = es := by
  cases o with
  | none => cases h
  | some s =>
      cases h
      exact ⟨rfl, rfl⟩

theorem next (h : Ok τ s) {a : RefAction} (hn : s.next H a = some (some s', es)) : Ok (τ ++ es) s' := by
  cases a with
  | gotPdu c p full =>
      simp only [Counted.next] at hn
      split at hn
      · split at hn
        · obtain ⟨happ, rfl⟩ := counted_eq_some (Option.some.inj hn)
          rw [List.append_nil]
          exact h.gotPdu (apply_applied happ)
        · cases hn
          rwa [List.append_nil]
      · cases hn
  | added =>
      simp only [Counted.next, Option.bind_eq_bind, Option.bind_eq_some_iff] at hn
      obtain ⟨⟨c, j⟩, -, hn⟩ := hn
      split at hn
      · cases hn
        rw [List.append_nil]
        exact ⟨h.balance, h.deleted, h.freed, h.waiting, h.ends⟩
      · obtain ⟨happ, rfl⟩ := counted_eq_some (Option.some.inj hn)
        exact h.doubled happ
  | setReachable r =>
      cases hn
      rw [List.append_nil]
      exact ⟨h.balance, h.deleted, h.freed, h.waiting, h.ends⟩
  | closeconn c =>
      simp only [Counted.next] at hn
      split at hn
      · cases hn
      · cases hn
        rw [List.append_nil]
        refine ⟨h.balance, fun c' hc' => ⟨(h.deleted c' hc').1, ?_⟩, h.freed, h.waiting, h.ends⟩
        show Function.update s.dead c true c' = true
        by_cases hc : c' = c
        · rw [hc, Function.update_self]
        · rw [Function.update_of_ne hc]
          exact (h.deleted c' hc').2
  | collect c =>
      simp only [Counted.next] at hn
      split at hn
      · rename_i hc
        obtain ⟨happ, rfl⟩ := counted_eq_some (Option.some.inj hn)
        rw [List.append_nil]
        exact h.collect hc.1 (apply_applied happ)
      · cases hn
  | job j a =>
      simp only [Counted.next, Option.bind_eq_bind, Option.bind_eq_some_iff] at hn
      obtain ⟨job, hj, p, hp, hn⟩ := hn
      split at hn
      · cases hn
      · rename_i hfreed
        split at hn
        · obtain ⟨⟨o, es'⟩, hstep, hn⟩ := Option.bind_eq_some_iff.mp hn
          cases o with
          | none => cases hn
          | some srv =>
              obtain ⟨happ, rfl⟩ := counted_eq_some (Option.some.inj hn)
              exact h.job (job_balanced hj hp hstep) hj (by simpa using hfreed) (foldlM_applied happ)
        · cases hn

end Counted.Ok

theorem counted_ok {nonce : UInt32} {procs : List UInt32}
    (hrun : (countedSystem H nonce procs).Run τ (some s)) : Counted.Ok τ s := by
  have hall := hrun.invariant (I := fun τ o => ∀ s, o = some s → Counted.Ok τ s) ?_ ?_
  · exact hall s rfl
  · rintro o rfl s ⟨⟩
    refine ⟨fun c => ?_, by simp [Counted.new], fun j => by simp [Counted.new, doublesOf], by
      simp [Counted.new], fun j => rfl⟩
    show (1 : Int) + 0 = 1 + (0 : Nat) + (entriesTo (fun _ : UInt32 => none) c : Nat) + 0
    rw [entriesTo_none]
    rfl
  · intro τ o a o' es hi hn s' hs'
    subst hs'
    obtain ⟨s, rfl, hn⟩ := Option.bind_eq_some_iff.mp hn
    exact (hi s rfl).next hn

/-! ## What goes wrong -/

/-- The references are right. A connection is counted once for the listener, while that has it, once for
each job and once for each entry; it is not deleted while a job has it; and the reference of a job is
dropped when the job has come to its end, and once. -/
structure RefsRight (τ : List RefEvent) (s : Counted) : Prop where
  refno : ∀ c, s.refno c =
    (if s.listed c then 1 else 0) + holders s.srv.rpcs c + entries s.srv.rpcs c
  alive : ∀ c, s.deleted c = true → holders s.srv.rpcs c = 0
  once : ∀ j, drops j τ = if s.srv.rpcs.done j then 1 else 0

/-- Neither is a request for an old instance dispatched, nor does `got_pdu` find that the server has
become unreachable when it has queued a job. -/
def RefEvent.harmless : RefEvent → Bool
  | .leaked _ _ | .doubled _ _ => false
  | .dropped _ _ | .undefined => true

theorem counts_of_harmless (h : ∀ e ∈ τ, e.harmless = true) :
    (∀ c, leaks c τ = 0 ∧ doubles c τ = 0) ∧ ∀ j, leaksOf j τ = 0 ∧ doublesOf j τ = 0 := by
  simp only [leaks, doubles, leaksOf, doublesOf, List.countP_eq_zero]
  refine ⟨fun c => ⟨fun e he => ?_, fun e he => ?_⟩, fun j => ⟨fun e he => ?_, fun e he => ?_⟩⟩
  all_goals
    have := h e he
    cases e <;> simp_all [RefEvent.harmless]

theorem doublesOf_le_drops (j : Nat) (τ : List RefEvent) : doublesOf j τ ≤ drops j τ := by
  refine List.countP_mono_left fun e _ => ?_
  cases e <;> simp

theorem RefsRight.harmless (h : Counted.Ok τ s) (hr : RefsRight τ s) : ∀ e ∈ τ, e.harmless = true := by
  have hleak : ∀ j c, .leaked j c ∉ τ := by
    intro j c he
    have hpos : 0 < leaksOf j τ := List.countP_pos_iff.mpr ⟨_, he, by simp⟩
    have hends := h.ends j
    have honce := hr.once j
    have hle := doublesOf_le_drops j τ
    -- the leak has ended the job, and a job that `got_pdu` has deleted does not come to its end
    have hfreed : s.freed j = true := (h.freed j).mp (by omega)
    rw [h.waiting j hfreed] at hends honce
    simp only [Bool.false_eq_true, if_false] at hends honce
    omega
  have hleaks : ∀ c, leaks c τ = 0 := by
    intro c
    refine List.countP_eq_zero.mpr fun e he => ?_
    cases e with
    | leaked j c' => exact absurd he (hleak j c')
    | dropped | doubled | undefined => simp
  intro e he
  cases e with
  | leaked j c => exact absurd he (hleak j c)
  | dropped | undefined => rfl
  | doubled j c =>
      have hpos : 0 < doubles c τ := List.countP_pos_iff.mpr ⟨_, he, by simp⟩
      have hbal := h.balance c
      rw [hr.refno c, hleaks c] at hbal
      omega

theorem refsRight_of_harmless (h : Counted.Ok τ s) (hτ : ∀ e ∈ τ, e.harmless = true) :
    RefsRight τ s := by
  obtain ⟨hconn, hjob⟩ := counts_of_harmless hτ
  have hrefno : ∀ c, s.refno c =
      (if s.listed c then 1 else 0) + holders s.srv.rpcs c + entries s.srv.rpcs c := by
    intro c
    have hbal := h.balance c
    rw [(hconn c).1, (hconn c).2] at hbal
    omega
  refine ⟨hrefno, fun c hdel => ?_, fun j => ?_⟩
  · have hzero := (h.deleted c hdel).1
    rw [hrefno c] at hzero
    split at hzero <;> omega
  · have hends := h.ends j
    rw [(hjob j).1, (hjob j).2] at hends
    omega

namespace Counted

/-! ## No use of freed memory -/

/-- A connection with a reference can be counted up and down. -/
theorem apply_defined (hdel : ∀ c, s.deleted c = true → s.refno c = 0 ∧ s.dead c = true) {op : RefOp}
    (hop : op = .inc c ∨ op = .dec c) (hc : 1 ≤ s.refno c) : ∃ s', s.apply op = some s' := by
  have hnot : ¬ s.deleted c = true := fun h => by
    have := (hdel c h).1
    omega
  rcases hop with rfl | rfl
  · exact ⟨_, if_neg hnot⟩
  · exact ⟨_, if_neg (not_or.mpr ⟨hnot, by omega⟩)⟩

/-- One reference is exchanged for another. -/
theorem exchange_defined (hdel : ∀ c, s.deleted c = true → s.refno c = 0 ∧ s.dead c = true) {c' : Conn}
    (hc : 1 ≤ s.refno c) (hc' : 1 ≤ s.refno c' + netRef c' [.dec c]) :
    ∃ s', [RefOp.dec c, .inc c'].foldlM apply s = some s' := by
  obtain ⟨s₁, h₁⟩ := apply_defined hdel (.inr rfl) hc
  have happ := apply_applied h₁
  obtain ⟨s₂, h₂⟩ := apply_defined (happ.deleted hdel) (.inl rfl) (by rwa [happ.refno c'])
  exact ⟨s₂, by simp [h₁, h₂]⟩

variable {j : Nat} {job : Job} {p : Bytes} {a : JobAction} {srv : Server}

theorem one_le_holders {u : Rpcs} (hj : u.jobs[j]? = some job) (hpc : job.pc ≠ .finished) :
    1 ≤ holders u job.conn :=
  List.countP_pos_iff.mpr ⟨job, List.mem_of_getElem? hj, by simp [Job.holds, hpc]⟩

/-- Whatever the listener does, jobs and entries have their references. -/
theorem le_refno (hr : RefsRight τ s) (c : Conn) :
    (holders s.srv.rpcs c + entries s.srv.rpcs c : Int) ≤ s.refno c := by
  have hrefno := hr.refno c
  split at hrefno <;> omega

/-- In a state with right references, a section of `dispatch` uses only connections that are there. -/
theorem refOps_defined (h : Ok τ s) (hr : RefsRight τ s) (hj : s.srv.rpcs.jobs[j]? = some job)
    (hpc : job.pc ≠ .finished) :
    ∃ s', (refOps s.srv.rpcs job p a).foldlM apply { s with srv } = some s' := by
  have hholds : 1 ≤ holders s.srv.rpcs job.conn := one_le_holders hj hpc
  have hself : 1 ≤ s.refno job.conn := by
    have := le_refno hr job.conn
    omega
  have hdec : ∃ s', [RefOp.dec job.conn].foldlM apply { s with srv } = some s' := by
    obtain ⟨s', hs'⟩ := apply_defined (s := { s with srv }) h.deleted (.inr rfl) hself
    exact ⟨s', by simp [hs']⟩
  have hnone : ∃ s', ([] : List RefOp).foldlM apply { s with srv } = some s' := ⟨_, rfl⟩
  cases a with
  | call | ret _ | addReply => exact hnone
  | send => exact hdec
  | header =>
      unfold refOps
      dsimp only
      split
      · exact hdec
      · exact hnone
  | check =>
      unfold refOps
      dsimp only
      split
      · exact hdec
      · exact hnone
  | saveConn older =>
      unfold refOps
      dsimp only
      split
      · obtain ⟨s', hs'⟩ := apply_defined (s := { s with srv }) h.deleted (.inl rfl) hself
        exact ⟨s', by simp [hs']⟩
      · rename_i c hc
        split
        · have hentry : 1 ≤ entries s.srv.rpcs c := entriesTo_pos hc
          have hle := le_refno hr c
          refine exchange_defined (s := { s with srv }) h.deleted (by show 1 ≤ s.refno c; omega) ?_
          show 1 ≤ s.refno job.conn + netRef job.conn [.dec c]
          -- the entry may be for the connection of the job
          by_cases heq : c = job.conn
          · rw [← heq] at hholds ⊢
            simp [netRef]
            omega
          · simp [netRef, heq]
            omega
        · exact hnone
  | choose dead =>
      unfold refOps
      dsimp only
      split
      · rename_i c hc
        split
        · rename_i hne
          have hentry : 1 ≤ entries s.srv.rpcs c := entriesTo_pos hc
          have hle := le_refno hr c
          refine exchange_defined (s := { s with srv }) h.deleted hself ?_
          show 1 ≤ s.refno c + netRef c [.dec job.conn]
          simp [netRef, Ne.symm hne.2]
          omega
        · exact hnone
      · exact hnone

theorem Ok.next_defined (h : Ok τ s) (hτ : ∀ e ∈ τ, e.harmless = true) {a : RefAction}
    {o : Option Counted} (hn : s.next H a = some (o, es)) (hes : ∀ e ∈ es, e.harmless = true) :
    .undefined ∉ es := by
  have hr := refsRight_of_harmless h hτ
  have hcounted : ∀ {o' : Option Counted} {es' : List RefEvent} {s'}, o' = some s' → .undefined ∉ es' →
      counted o' es' = (o, es) → .undefined ∉ es := by
    rintro _ _ _ rfl hno heq
    cases heq
    exact hno
  cases a with
  | gotPdu c p full =>
      simp only [Counted.next] at hn
      split at hn
      · rename_i hc
        split at hn
        · have hdel : s.deleted c ≠ true := by
            intro hdel
            exact Bool.false_ne_true (hc.2.1.symm.trans (h.deleted c hdel).2)
          exact hcounted (if_neg hdel) (by simp) (Option.some.inj hn)
        · cases hn
          simp
      · cases hn
  | added =>
      simp only [Counted.next, Option.bind_eq_bind, Option.bind_eq_some_iff] at hn
      obtain ⟨⟨c, j⟩, -, hn⟩ := hn
      split at hn
      · cases hn
        simp
      · have hmem : .doubled j c ∈ es := by
          have heq := Option.some.inj hn
          unfold counted at heq
          split at heq <;> cases heq <;> simp
        exact absurd (hes _ hmem) (by simp [RefEvent.harmless])
  | setReachable r =>
      cases hn
      simp
  | closeconn c =>
      simp only [Counted.next] at hn
      split at hn <;> cases hn
      simp
  | collect c =>
      simp only [Counted.next] at hn
      split at hn
      · rename_i hc
        obtain ⟨s', hs'⟩ := apply_defined (c := c)
          (s := { s with listed := Function.update s.listed c false }) h.deleted (.inr rfl)
          (by show 1 ≤ s.refno c; omega)
        exact hcounted hs' (by simp) (Option.some.inj hn)
      · cases hn
  | job j a =>
      simp only [Counted.next, Option.bind_eq_bind, Option.bind_eq_some_iff] at hn
      obtain ⟨job, hj, p, hp, hn⟩ := hn
      split at hn
      · rename_i hfreed
        exact absurd ((counts_of_harmless hτ).2 j).2 ((h.freed j).mpr hfreed)
      · split at hn
        · obtain ⟨⟨o', es'⟩, hstep, hn⟩ := Option.bind_eq_some_iff.mp hn
          cases o' with
          | none =>
              cases hn
              simp
          | some srv =>
              have hb := job_balanced hj hp hstep
              obtain ⟨s', hs'⟩ : ∃ s',
                (refOps s.srv.rpcs job p a).foldlM apply { s with srv } = some s' :=
                refOps_defined h hr hj hb.unfinished
              refine hcounted hs' ?_ (Option.some.inj hn)
              unfold refEvents
              split_ifs <;> simp
        · cases hn

end Counted

/-- The references are right exactly if no request for an old instance was dispatched and `got_pdu` has
never found the server unreachable after it had queued a job. And then no freed memory is used. -/
theorem refno_balanced_iff {nonce : UInt32} {procs : List UInt32} {o : Option Counted}
    (hrun : (countedSystem H nonce procs).Run τ o) :
    (∀ s, o = some s → (RefsRight τ s ↔ ∀ e ∈ τ, e.harmless = true)) ∧
      ((∀ e ∈ τ, e.harmless = true) → .undefined ∉ τ) := by
  constructor
  · rintro s rfl
    have h := counted_ok hrun
    exact ⟨fun hr => hr.harmless h, refsRight_of_harmless h⟩
  · induction hrun with
    | start _ => simp
    | @step τ o a o' es hpre hn ih =>
        intro hall
        have hτ : ∀ e ∈ τ, e.harmless = true := fun e he => hall e (List.mem_append_left _ he)
        have hes : ∀ e ∈ es, e.harmless = true := fun e he => hall e (List.mem_append_right _ he)
        obtain ⟨s, rfl, hn⟩ := Option.bind_eq_some_iff.mp hn
        rw [List.mem_append, not_or]
        exact ⟨ih hτ, (counted_ok hpre).next_defined hτ hn hes⟩

end

/-- A call that is executed: afterwards the listener and `conns_` have references, and the job has
dropped its own. -/
theorem refno_balanced_call : ∃ τ s, (countedSystem (fun _ => okHandler) 9 [5]).Run τ (some s) ∧
    s.refno 3 = 2 ∧ (∀ e ∈ τ, e.harmless = true) ∧ drops 0 τ = 1 ∧
    (∀ s', some s = some s' → (RefsRight τ s' ↔ ∀ e ∈ τ, e.harmless = true)) ∧
      ((∀ e ∈ τ, e.harmless = true) → .undefined ∉ τ) := by
  obtain ⟨τ, o, hrun, ho, hτ, hdrops⟩ := System.exists_run
    (S := countedSystem (fun _ => okHandler) 9 [5]) (s := some (.new 9 [5]))
    (p := fun τ o => o.any (·.refno 3 = 2) = true ∧ (∀ e ∈ τ, e.harmless = true) ∧ drops 0 τ = 1)
    [.gotPdu 3 (intCall 9 5) false, .added, .job 0 .header, .job 0 (.saveConn false), .job 0 .check,
      .job 0 .call, .job 0 (.ret 0), .job 0 .addReply, .job 0 (.choose false), .job 0 .send] rfl
    (by decide)
  cases o with
  | none => cases ho
  | some s => exact ⟨τ, s, hrun, by simpa using ho, hτ, hdrops, refno_balanced_iff hrun⟩

/-- A request for an old instance is answered, and its reference stays: the listener's connection has
no job and no entry left, but its count is more than 1. -/
theorem old_server_leaks : ∃ τ s, (countedSystem (fun _ => okHandler) 9 [5]).Run τ (some s) ∧
    s.listed 3 = true ∧ s.refno 3 ≠ 1 + holders s.srv.rpcs 3 + entries s.srv.rpcs 3 ∧
    s.srv.rpcs.done 0 = true ∧ drops 0 τ = 0 := by
  obtain ⟨τ, o, hrun, ho, hleaks, hdoubles, hdrops⟩ := System.exists_run
    (S := countedSystem (fun _ => okHandler) 9 [5]) (s := some (.new 9 [5]))
    (p := fun τ o => o.any (fun s => s.listed 3 && s.srv.rpcs.done 0) = true ∧ leaks 3 τ = 1 ∧
      doubles 3 τ = 0 ∧ drops 0 τ = 0)
    [.gotPdu 3 (intCall 8 5) false, .added, .job 0 .header] rfl (by decide)
  cases o with
  | none => cases ho
  | some s =>
      obtain ⟨hlisted, hdone⟩ : s.listed 3 = true ∧ s.srv.rpcs.done 0 = true := by simpa using ho
      refine ⟨τ, s, hrun, hlisted, ?_, hdone, hdrops⟩
      have hbal := (counted_ok hrun).balance 3
      rw [if_pos hlisted, hleaks, hdoubles] at hbal
      omega

end Yfs.Rpc
