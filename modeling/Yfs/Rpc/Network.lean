import Yfs.Lib.System
import Yfs.Rpc.Ack
import Yfs.Rpc.Execution

/-!
# Clients, server instances and the network between them

Any number of clients, told apart by their non-zero nonces, and any number of server instances, told
apart by theirs. A server that is started again is a new instance; nothing is carried over, and
nothing requires the old instance to be gone. A connection belongs to one client and leads to one
instance. Messages stay in the network for ever: one that is never delivered is lost, and one may be
delivered late, out of order, and even more than once.
-/

namespace Yfs.Rpc

open Yfs.Lib Function

/-- A server instance. -/
inductive Instance where
  /-- It has not been started. -/
  | never
  | up (s : Rpcs)
  /-- It has crashed, or stopped itself with a failed `VERIFY`. -/
  | gone

structure World where
  clients : UInt32 → Rpcc
  servers : UInt32 → Instance
  /-- The client and the instance of each connection. -/
  conns : List (UInt32 × UInt32)
  /-- The connections that are closed. -/
  dead : List Conn
  /-- All requests that were ever sent, and where. -/
  reqs : List (Conn × Request)
  /-- All replies that were ever sent, and where. -/
  reps : List (Conn × Reply)

inductive WorldEvent where
  | client (c : UInt32) (e : ClientEvent)
  | server (n : UInt32) (e : ServerEvent)
  deriving DecidableEq, Repr

inductive WorldAction where
  /-- A step of client `c` that does not depend on the network. -/
  | client (c : UInt32) (a : ClientAction)
  /-- `get_refconn`; a new connection leads to instance `n`, or cannot be made. -/
  | connect (c : UInt32) (i : Nat) (n : Option UInt32)
  /-- The wait of call `i` ends without a reply; `last` says that the next one is the final one. -/
  | timeout (c : UInt32) (i : Nat) (last : Bool)
  /-- The `m`-th reply reaches the client of its connection. -/
  | deliverReply (m : Nat)
  /-- A step of instance `n` that does not depend on the network. -/
  | server (n : UInt32) (a : ServerAction)
  /-- Job `j` of instance `n` chooses the connection that its reply is sent on. -/
  | choose (n : UInt32) (j : Nat)
  /-- The `m`-th request reaches the instance that its connection leads to. -/
  | deliverRequest (m : Nat)
  /-- A new instance starts, with the procedures that are registered with it. -/
  | boot (n : UInt32) (procs : List UInt32)
  | crash (n : UInt32)
  /-- A connection breaks, or one of its ends closes it. -/
  | close (k : Conn)

/-- The steps that ask the network for something. -/
def ClientAction.asksNetwork : ClientAction → Bool
  | .getRefconn .. | .timeout .. | .gotPdu _ => true
  | _ => false

def ServerAction.asksNetwork : ServerAction → Bool
  | .gotPdu .. | .choose .. => true
  | _ => false

/-- What a client puts into the network. -/
def ClientEvent.request : ClientEvent → Option (Conn × Request)
  | sent k req => some (k, req)
  | _ => none

/-- What a server puts into the network. -/
def ServerEvent.reply : ServerEvent → Option (Conn × Reply)
  | sent k b => some (k, b)
  | _ => none

namespace World

/-- Nothing has happened yet. -/
def initial (lossytest : UInt32 → Bool) : World where
  clients := fun c => .new c (lossytest c)
  servers := fun _ => .never
  conns := []
  dead := []
  reqs := []
  reps := []

def isDead (w : World) (k : Option Conn) : Bool := k.any fun k => w.dead.contains k

/-- Client `c` takes a step; what it sends goes into the network. -/
def stepClient (w : World) (c : UInt32) (a : ClientAction) : Option (World × List WorldEvent) :=
  if c = 0 then none
  else ((w.clients c).step a).map fun r =>
    ({ w with
        clients := update w.clients c r.1
        reqs := w.reqs ++ r.2.filterMap (·.request) },
      r.2.map (.client c))

/-- Instance `n` takes a step; what it sends goes into the network. -/
def stepServer (w : World) (n : UInt32) (a : ServerAction) : Option (World × List WorldEvent) :=
  match w.servers n with
  | .up s => (s.step a).map fun r =>
      ({ w with
          servers := update w.servers n (r.1.elim .gone .up)
          reps := w.reps ++ r.2.filterMap (·.reply) },
        r.2.map (.server n))
  | _ => none

/-- `get_refconn` with the connection it may have to make. -/
def connect (w : World) (c : UInt32) (i : Nat) (n : Option UInt32) :
    Option (World × List WorldEvent) :=
  let chan := (w.clients c).chan
  let dead := w.isDead chan
  match n with
  | some n =>
      match w.servers n with
      | .up _ =>
          if chan = none ∨ dead then
            { w with conns := w.conns ++ [(c, n)] }.stepClient c
              (.getRefconn i dead (some w.conns.length))
          else none
      | _ => none
  | none => w.stepClient c (.getRefconn i dead none)

def next (w : World) : WorldAction → Option (World × List WorldEvent)
  | .client c a => if a.asksNetwork then none else w.stepClient c a
  | .connect c i n => w.connect c i n
  | .timeout c i last =>
      w.stepClient c (.timeout i (w.isDead ((w.clients c).frames[i]?.bind (·.ch))) last)
  | .deliverReply m => do
      let (k, b) ← w.reps[m]?
      let (c, _) ← w.conns[k]?
      w.stepClient c (.gotPdu b)
  | .server n a => if a.asksNetwork then none else w.stepServer n a
  | .choose n j =>
      match w.servers n with
      | .up s => w.stepServer n (.choose j (w.isDead (s.jobs[j]?.map (·.conn))))
      | _ => none
  | .deliverRequest m => do
      let (k, req) ← w.reqs[m]?
      let (_, n) ← w.conns[k]?
      w.stepServer n (.gotPdu k req)
  | .boot n procs =>
      match w.servers n with
      | .never =>
          if n = 0 then none
          else some ({ w with servers := update w.servers n (.up (.new n procs)) }, [])
      | _ => none
  | .crash n =>
      match w.servers n with
      | .up _ => some ({ w with servers := update w.servers n .gone }, [])
      | _ => none
  | .close k => some ({ w with dead := k :: w.dead }, [])

end World

def rpcWorld : System World WorldAction WorldEvent where
  init w := ∃ lossytest, w = .initial lossytest
  next := World.next

/-! ## What each party sees of a run -/

def clientTrace (c : UInt32) (τ : List WorldEvent) : List ClientEvent :=
  τ.filterMap fun
    | .client c' e => if c' = c then some e else none
    | _ => none

def serverTrace (n : UInt32) (τ : List WorldEvent) : List ServerEvent :=
  τ.filterMap fun
    | .server n' e => if n' = n then some e else none
    | _ => none

section
variable {τ τ' : List WorldEvent} {c c' n n' : UInt32}

theorem mem_clientTrace {e : ClientEvent} : e ∈ clientTrace c τ ↔ .client c e ∈ τ := by
  simp only [clientTrace, List.mem_filterMap]
  constructor
  · rintro ⟨e', he, h⟩
    cases e' with
    | client c' e' => simp_all
    | server n e' => simp at h
  · intro he
    exact ⟨_, he, by simp⟩

theorem mem_serverTrace {e : ServerEvent} : e ∈ serverTrace n τ ↔ .server n e ∈ τ := by
  simp only [serverTrace, List.mem_filterMap]
  constructor
  · rintro ⟨e', he, h⟩
    cases e' with
    | server n' e' => simp_all
    | client c e' => simp at h
  · intro he
    exact ⟨_, he, by simp⟩

@[simp] theorem clientTrace_append :
    clientTrace c (τ ++ τ') = clientTrace c τ ++ clientTrace c τ' := by
  simp [clientTrace]

@[simp] theorem serverTrace_append :
    serverTrace n (τ ++ τ') = serverTrace n τ ++ serverTrace n τ' := by
  simp [serverTrace]

@[simp] theorem clientTrace_client (es : List ClientEvent) :
    clientTrace c (es.map (.client c')) = if c' = c then es else [] := by
  simp only [clientTrace, List.filterMap_map]
  split <;> simp_all

@[simp] theorem serverTrace_server (es : List ServerEvent) :
    serverTrace n (es.map (.server n')) = if n' = n then es else [] := by
  simp only [serverTrace, List.filterMap_map]
  split <;> simp_all

@[simp] theorem clientTrace_server (es : List ServerEvent) :
    clientTrace c (es.map (.server n)) = [] := by
  simp [clientTrace]

@[simp] theorem serverTrace_client (es : List ClientEvent) :
    serverTrace n (es.map (.client c)) = [] := by
  simp [serverTrace]

end

end Yfs.Rpc
