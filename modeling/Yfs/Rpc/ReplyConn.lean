import Yfs.Lib.System
import Yfs.Rpc.Server

/-!
# The connection of a reply

While a handler runs, the connection of its request may die and newer connections of the same client may
come. `dispatch` therefore remembers for each client the connection that was created last, and sends a
reply there if the connection of the request is dead. Here the create times decide which connection is
newer, and each choice of a connection is an event, with the connections recorded for the client so far.

A reply goes to the connection of its request or to the latest one recorded. But a client without
at-most-once semantics has nonce 0, for which nothing is recorded: if its connection dies while the
handler runs, `conns_[0]` is a null pointer (`replyConn_iff`, `replyConn_null`).
-/

namespace Yfs.Rpc

open Yfs.Lib

/-- `struct timeval`. -/
structure Timeval where
  sec : Int
  usec : Int
  deriving DecidableEq, Repr

/-- `connection::compare`, of the times that two connections were created. -/
def compareTime (a b : Timeval) : Int :=
  if a.sec > b.sec then 1
  else if a.sec < b.sec then -1
  else if a.usec > b.usec then 1
  else if a.usec < b.usec then -1
  else 0

theorem compareTime_self (a : Timeval) : compareTime a a = 0 := by
  simp [compareTime]

theorem compareTime_le_zero_iff {a b : Timeval} :
    compareTime a b ≤ 0 ↔ a.sec < b.sec ∨ a.sec = b.sec ∧ a.usec ≤ b.usec := by
  unfold compareTime
  split_ifs <;> omega

theorem compareTime_trans {a b c : Timeval} (h : compareTime a b ≤ 0) (h' : compareTime b c ≤ 0) :
    compareTime a c ≤ 0 := by
  rw [compareTime_le_zero_iff] at h h' ⊢
  omega

/-- The choice of a connection for the reply to a new request. -/
structure Choice where
  /-- The connection that the request came on. -/
  own : Conn
  dead : Bool
  nonce : UInt32
  /-- The connections that were recorded for the nonce so far. -/
  recorded : List Conn
  /-- The connection that the reply is sent on; a null pointer is `none`. -/
  sent : Option Conn
  deriving DecidableEq, Repr

/-- The reply goes to the connection of the request, or to the latest one recorded. -/
def Choice.Good (created : Conn → Timeval) (x : Choice) : Prop :=
  ∃ c, x.sent = some c ∧ (c = x.own ∨
    (c ∈ x.recorded ∧ ∀ c' ∈ x.recorded, compareTime (created c') (created c) ≤ 0))

/-- A server instance, with the connection that each job came on and the connections recorded for each
nonce. -/
structure Replying where
  rpcs : Rpcs
  own : Nat → Conn
  recorded : UInt32 → List Conn

namespace Replying

def new (nonce : UInt32) (procs : List UInt32) : Replying where
  rpcs := .new nonce procs
  own := fun _ => 0
  recorded := fun _ => []

/-- A connection is older than another if it was created before it. -/
def Timely (created : Conn → Timeval) (r : Rpcs) : ServerAction → Bool
  | .saveConn j older =>
      match r.jobs[j]? with
      | some job =>
          match r.conns job.req.hdr.cltNonce with
          | some c => older = decide (compareTime (created c) (created job.conn) < 0)
          | none => true
      | none => true
  | _ => true

/-- What is remembered when the instance comes to `r`. -/
def after (s : Replying) (r : Rpcs) : ServerAction → Replying
  | .gotPdu c _ => { s with rpcs := r, own := Function.update s.own s.rpcs.jobs.length c }
  | .saveConn j _ =>
      match s.rpcs.jobs[j]? with
      | some job =>
          let clt := job.req.hdr.cltNonce
          { s with
            rpcs := r
            recorded := Function.update s.recorded clt ((r.conns clt).toList ++ s.recorded clt) }
      | none => { s with rpcs := r }
  | _ => { s with rpcs := r }

/-- The choice that is made when the instance comes to `o`. -/
def choices (s : Replying) (o : Option Rpcs) : ServerAction → List Choice
  | .choose j dead =>
      match s.rpcs.jobs[j]? with
      | some job =>
          [{ own := s.own j
             dead
             nonce := job.req.hdr.cltNonce
             recorded := s.recorded job.req.hdr.cltNonce
             sent := do
               let r ← o
               let job ← r.jobs[j]?
               return job.conn }]
      | none => []
  | _ => []

def next (created : Conn → Timeval) :
    Option Replying → ServerAction → Option (Option Replying × List Choice)
  | none, _ => none
  | some s, a =>
      if Timely created s.rpcs a then
        (s.rpcs.step a).map fun x => (x.1.map (s.after · a), s.choices x.1 a)
      else none

end Replying

/-- A server instance whose connections were created at the times `created`. -/
def replySystem (created : Conn → Timeval) : System (Option Replying) ServerAction Choice where
  init s := ∃ nonce procs, s = some (.new nonce procs)
  next := Replying.next created

namespace Replying

variable {created : Conn → Timeval} {s s' : Replying} {a : ServerAction}

/-! ## The connection that is remembered -/

/-- A job that has not chosen a connection has the one it came on. Past the section that saves it, the
client's nonce is 0 or has a connection. -/
def JobOk (own : Conn) (conns : UInt32 → Option Conn) (job : Job) : Prop :=
  match job.pc with
  | .arrived => job.conn = own
  | .save => job.conn = own ∧ job.req.hdr.cltNonce ≠ 0
  | .check | .new | .running | .reply _ | .choose _ =>
      job.conn = own ∧ (job.req.hdr.cltNonce ≠ 0 → conns job.req.hdr.cltNonce ≠ none)
  | .send _ | .finished => True

/-- The connection kept for a nonce is the latest one recorded. -/
def Latest (created : Conn → Timeval) (recorded : List Conn) : Option Conn → Prop
  | none => recorded = []
  | some c => c ∈ recorded ∧ ∀ c' ∈ recorded, compareTime (created c') (created c) ≤ 0

structure Ok (created : Conn → Timeval) (s : Replying) : Prop where
  jobs : ∀ {j job}, s.rpcs.jobs[j]? = some job → JobOk (s.own j) s.rpcs.conns job
  zero : s.rpcs.conns 0 = none
  latest : ∀ n, Latest created (s.recorded n) (s.rpcs.conns n)

/-- A step that changes one job and no connections. -/
theorem Ok.setJob (h : Ok created s) {r : Rpcs} {j : Nat} {job : Job}
    (hjobs : r.jobs = s.rpcs.jobs.set j job) (hconns : r.conns = s.rpcs.conns)
    (hok : JobOk (s.own j) s.rpcs.conns job) : Ok created { s with rpcs := r } := by
  refine ⟨fun {i job'} hi => ?_, ?_, fun n => ?_⟩
  · change r.jobs[i]? = _ at hi
    rw [hjobs, List.getElem?_set] at hi
    show JobOk _ r.conns _
    rw [hconns]
    by_cases hij : j = i
    · subst hij
      rw [if_pos rfl] at hi
      obtain ⟨-, heq⟩ := Option.ite_none_right_eq_some.mp hi
      cases heq
      exact hok
    · rw [if_neg hij] at hi
      exact h.jobs hi
  · show r.conns 0 = none
    rw [hconns, h.zero]
  · show Latest _ _ (r.conns n)
    rw [hconns]
    exact h.latest n

theorem JobOk.mono {own : Conn} {conns conns' : UInt32 → Option Conn} {job : Job}
    (h : JobOk own conns job) (hle : ∀ n, conns n ≠ none → conns' n ≠ none) : JobOk own conns' job := by
  obtain ⟨c, req, pc⟩ := job
  cases pc with
  | arrived | save => exact h
  | check | new | running | reply | choose => exact ⟨h.1, fun hz => hle _ (h.2 hz)⟩
  | send | finished => trivial

/-- The later one of the connection that was kept and a new one is kept. -/
theorem Latest.save {recorded : List Conn} {kept : Option Conn} (h : Latest created recorded kept)
    {c : Conn} {older : Bool}
    (holder : ∀ k, kept = some k → older = decide (compareTime (created k) (created c) < 0)) :
    Latest created ((if kept = none ∨ older then some c else kept).toList ++ recorded)
      (if kept = none ∨ older then some c else kept) := by
  cases kept with
  | none =>
      rw [if_pos (.inl rfl), show recorded = [] from h]
      exact ⟨by simp, by simp [compareTime_self]⟩
  | some k =>
      obtain ⟨hk, hall⟩ := h
      have hold := holder k rfl
      by_cases hlt : compareTime (created k) (created c) < 0
      · rw [if_pos (.inr (by simp [hold, hlt]))]
        refine ⟨by simp, fun c' hc' => ?_⟩
        rcases List.mem_cons.mp hc' with rfl | hc'
        · rw [compareTime_self]
        · exact compareTime_trans (hall c' hc') (Int.le_of_lt hlt)
      · rw [if_neg (by simp [hold, hlt])]
        refine ⟨by simp, fun c' hc' => ?_⟩
        rcases List.mem_cons.mp hc' with rfl | hc'
        · rw [compareTime_self]
        · exact hall c' hc'

/-- A connection is saved. The one that was there is kept if it is not older. -/
theorem Ok.saveConn (h : Ok created s) {j : Nat} {job : Job} {older : Bool}
    (hj : s.rpcs.jobs[j]? = some job) (hpc : job.pc = .save)
    (htimely : Timely created s.rpcs (.saveConn j older) = true) :
    Ok created (s.after (s.rpcs.saveConn j job older) (.saveConn j older)) := by
  have hok := h.jobs hj
  simp only [JobOk, hpc] at hok
  obtain ⟨hown, hz⟩ := hok
  have holder : ∀ k, s.rpcs.conns job.req.hdr.cltNonce = some k →
      older = decide (compareTime (created k) (created job.conn) < 0) := by
    intro k hk
    simpa [Timely, hj, hk] using htimely
  -- the connections after the section
  have hconns : ∀ n, (s.rpcs.saveConn j job older).conns n =
      if n = job.req.hdr.cltNonce then
        (if s.rpcs.conns job.req.hdr.cltNonce = none ∨ older then some job.conn
          else s.rpcs.conns job.req.hdr.cltNonce)
      else s.rpcs.conns n := by
    intro n
    simp only [Rpcs.saveConn, Rpcs.setJob]
    by_cases hn : n = job.req.hdr.cltNonce
    · subst hn
      split <;> simp
    · split <;> simp [hn]
  have hkept : ∀ n, s.rpcs.conns n ≠ none → (s.rpcs.saveConn j job older).conns n ≠ none := by
    intro n hn
    rw [hconns]
    split
    · subst n
      split
      · simp
      · exact hn
    · exact hn
  have hafter : s.after (s.rpcs.saveConn j job older) (.saveConn j older) =
      { s with
        rpcs := s.rpcs.saveConn j job older
        recorded := Function.update s.recorded job.req.hdr.cltNonce
          (((s.rpcs.saveConn j job older).conns job.req.hdr.cltNonce).toList ++
            s.recorded job.req.hdr.cltNonce) } := by
    simp [after, hj]
  rw [hafter]
  refine ⟨fun {i job'} hi => ?_, ?_, fun n => ?_⟩
  · change (s.rpcs.jobs.set j { job with pc := .check })[i]? = some job' at hi
    rw [List.getElem?_set] at hi
    by_cases hij : j = i
    · subst hij
      rw [if_pos rfl] at hi
      obtain ⟨-, heq⟩ := Option.ite_none_right_eq_some.mp hi
      cases heq
      refine ⟨hown, fun _ => ?_⟩
      rw [hconns, if_pos rfl]
      split
      · simp
      · rename_i hnone
        exact fun heq => hnone (.inl heq)
    · rw [if_neg hij] at hi
      exact (h.jobs hi).mono hkept
  · rw [hconns, if_neg (Ne.symm hz)]
    exact h.zero
  · by_cases hn : n = job.req.hdr.cltNonce
    · subst hn
      show Latest created (Function.update s.recorded job.req.hdr.cltNonce _ _) _
      rw [Function.update_self, hconns, if_pos rfl]
      exact (h.latest _).save holder
    · show Latest created (Function.update s.recorded job.req.hdr.cltNonce _ _) _
      rw [Function.update_of_ne hn, hconns, if_neg hn]
      exact h.latest n

theorem Ok.gotPdu (h : Ok created s) (c : Conn) (req : Request) :
    Ok created
      (s.after { s.rpcs with jobs := s.rpcs.jobs ++ [⟨c, req, .arrived⟩] } (.gotPdu c req)) := by
  refine ⟨fun {i job} hi => ?_, h.zero, h.latest⟩
  change (s.rpcs.jobs ++ [⟨c, req, .arrived⟩])[i]? = some job at hi
  show JobOk (Function.update s.own s.rpcs.jobs.length c i) s.rpcs.conns job
  rcases Nat.lt_trichotomy i s.rpcs.jobs.length with hlt | rfl | hgt
  · rw [Function.update_of_ne (by omega)]
    rw [List.getElem?_append_left hlt] at hi
    exact h.jobs hi
  · rw [Function.update_self]
    simp at hi
    subst hi
    rfl
  · rw [List.getElem?_eq_none (by simp; omega)] at hi
    cases hi

/-- Every step keeps `Ok`. -/
theorem Ok.step (h : Ok created s) {r : Rpcs} {es : List ServerEvent}
    (hstep : s.rpcs.Step a (some r) es)
    (htimely : Timely created s.rpcs a = true) : Ok created (s.after r a) := by
  generalize ho : some r = o at hstep
  cases hstep with
  | gotPdu =>
      cases ho
      exact h.gotPdu _ _
  | @header j job hj hpc =>
      have hok := h.jobs hj
      simp only [JobOk, hpc] at hok
      obtain ⟨rfl, -⟩ | ⟨-, -, rfl, -⟩ := Rpcs.header_eq_some ho.symm
      · exact h.setJob rfl rfl trivial
      · refine h.setJob rfl rfl ?_
        by_cases hz : job.req.hdr.cltNonce = 0
        · simp [JobOk, hz, hok]
        · simp [JobOk, hz, hok]
  | saveConn hj hpc =>
      cases ho
      exact h.saveConn hj hpc htimely
  | @check j job hj hpc =>
      have hok := h.jobs hj
      simp only [JobOk, hpc] at hok
      obtain ⟨-, ⟨w, st⟩, -, rfl⟩ := Rpcs.check_eq_some ho.symm
      refine h.setJob rfl rfl ?_
      cases st with
      | done b => cases b <;> trivial
      | new => exact hok
      | _ => trivial
  | @call j job hj hpc =>
      have hok := h.jobs hj
      simp only [JobOk, hpc] at hok
      cases ho
      exact h.setJob rfl rfl hok
  | @ret j job _ _ o hj hpc hret =>
      have hok := h.jobs hj
      simp only [JobOk, hpc] at hok
      obtain ⟨o, es⟩ := o
      subst ho
      obtain ⟨-, -, rfl, -⟩ := Rpcs.ret_eq_some hret
      exact h.setJob rfl rfl hok
  | @addReply j job _ hj hpc =>
      have hok := h.jobs hj
      simp only [JobOk, hpc] at hok
      obtain ⟨-, rfl⟩ | ⟨-, -, rfl⟩ := Rpcs.addReply_eq_some ho.symm
      · exact h.setJob rfl rfl hok
      · exact h.setJob rfl rfl hok
  | choose hj hpc =>
      obtain ⟨c, -, -, -, rfl⟩ | ⟨-, rfl⟩ := Rpcs.choose_eq_some ho.symm
      · exact h.setJob rfl rfl trivial
      · exact h.setJob rfl rfl trivial
  | send hj hpc =>
      cases ho
      exact h.setJob rfl rfl trivial

/-- The connection that the reply is sent on. -/
theorem choose_sent {r : Rpcs} {j : Nat} {job : Job} {b : Reply} {dead : Bool}
    (hj : r.jobs[j]? = some job) :
    (do let r' ← r.choose j job b dead; let job' ← r'.jobs[j]?; return job'.conn) =
      if dead = true ∧ r.conns job.req.hdr.cltNonce ≠ some job.conn then r.conns job.req.hdr.cltNonce
      else some job.conn := by
  have hlt : j < r.jobs.length := (List.getElem?_eq_some_iff.mp hj).1
  unfold Rpcs.choose
  dsimp only
  split
  · cases r.conns job.req.hdr.cltNonce with
    | none => rfl
    | some c => simp [Rpcs.setJob, hlt]
  · simp [Rpcs.setJob, hlt]

/-- The choice of a connection is good exactly if the client has a nonce or its connection lives. -/
theorem Ok.choice (h : Ok created s) {j : Nat} {dead : Bool} {o : Option Rpcs} {es : List ServerEvent}
    (hstep : s.rpcs.Step (.choose j dead) o es) {x : Choice} (hx : x ∈ s.choices o (.choose j dead)) :
    x.Good created ↔ (x.nonce = 0 → x.dead = false) := by
  cases hstep with
  | @choose _ job b _ hj hpc =>
      have hok := h.jobs hj
      simp only [JobOk, hpc] at hok
      obtain ⟨hown, hknown⟩ := hok
      simp only [choices, hj, List.mem_singleton] at hx
      subst hx
      simp only [Choice.Good, choose_sent hj]
      by_cases hother : dead = true ∧ s.rpcs.conns job.req.hdr.cltNonce ≠ some job.conn
      · rw [if_pos hother]
        have hlatest := h.latest job.req.hdr.cltNonce
        cases hc : s.rpcs.conns job.req.hdr.cltNonce with
        | none =>
            -- nothing is recorded, so the client has no nonce
            have hzero : job.req.hdr.cltNonce = 0 := by
              by_contra hne
              exact hknown hne hc
            simp [hzero, hother.1]
        | some c =>
            rw [hc] at hlatest
            have hne : job.req.hdr.cltNonce ≠ 0 := by
              intro hzero
              rw [hzero, h.zero] at hc
              cases hc
            exact ⟨fun _ hz => absurd hz hne, fun _ => ⟨c, rfl, .inr hlatest⟩⟩
      · rw [if_neg hother]
        refine ⟨fun _ hz => ?_, fun _ => ⟨job.conn, rfl, .inl hown⟩⟩
        by_contra hdead
        exact hother ⟨by simpa using hdead, by rw [hz, h.zero]; simp⟩

theorem next_eq_some {o' : Option Replying} {xs : List Choice}
    (h : next created (some s) a = some (o', xs)) :
    ∃ o es, s.rpcs.Step a o es ∧ Timely created s.rpcs a = true ∧ o' = o.map (s.after · a) ∧
      xs = s.choices o a := by
  simp only [next] at h
  split at h
  · obtain ⟨⟨o, es⟩, hstep, heq⟩ := Option.map_eq_some_iff.mp h
    cases heq
    exact ⟨o, es, Rpcs.step_inv hstep, ‹_›, rfl, rfl⟩
  · cases h

theorem ok_of_run {τ : List Choice} {o : Option Replying} (h : (replySystem created).Run τ o) :
    (∀ s, o = some s → Ok created s) ∧
      ∀ x ∈ τ, x.Good created ↔ (x.nonce = 0 → x.dead = false) := by
  induction h with
  | start hs =>
      obtain ⟨nonce, procs, rfl⟩ := hs
      refine ⟨fun s hs => ?_, by simp⟩
      cases hs
      exact ⟨fun {j job} hj => by simp [Replying.new, Rpcs.new] at hj, rfl, fun n => rfl⟩
  | @step τ o a o' xs _ hn ih =>
      obtain ⟨hok, hτ⟩ := ih
      cases o with
      | none => cases hn
      | some s =>
          obtain ⟨r, es, hstep, htimely, rfl, rfl⟩ := next_eq_some hn
          refine ⟨fun s' hs' => ?_, fun x hx => ?_⟩
          · obtain ⟨r, rfl, rfl⟩ := Option.map_eq_some_iff.mp hs'
            exact (hok s rfl).step hstep htimely
          · rcases List.mem_append.mp hx with hx | hx
            · exact hτ x hx
            · cases a with
              | choose j dead => exact (hok s rfl).choice hstep hx
              | _ => cases hx

end Replying

/-- Over any run, each reply to a new request goes to the connection it came on or to the latest one
recorded, exactly if no client without a nonce loses its connection while its handler runs. -/
theorem replyConn_iff {created : Conn → Timeval} {τ : List Choice} {s : Option Replying}
    (h : (replySystem created).Run τ s) :
    (∀ x ∈ τ, x.Good created) ↔ ∀ x ∈ τ, x.nonce = 0 → x.dead = false := by
  have hall := (Replying.ok_of_run h).2
  exact forall₂_congr hall

/-- A request from client 7 on connection 1; connection 2 comes with its next request, and connection 1
dies. The reply goes to connection 2. -/
theorem replyConn_newer :
    ∃ τ s, (replySystem fun c => ⟨c, 0⟩).Run τ s ∧ τ ≠ [] ∧ ∀ x ∈ τ, x.Good fun c => ⟨c, 0⟩ := by
  have hreq : ∃ τ s, (replySystem fun c => ⟨c, 0⟩).Run τ s ∧ τ ≠ [] ∧
      ∀ x ∈ τ, x.nonce = 0 → x.dead = false :=
    System.exists_run
      [.gotPdu 1 ⟨⟨1, 5, 7, 9, 0⟩, []⟩, .header 0, .saveConn 0 false, .check 0, .call 0,
        .gotPdu 2 ⟨⟨2, 5, 7, 9, 0⟩, []⟩, .header 1, .saveConn 1 true,
        .ret 0 0 [], .addReply 0, .choose 0 true, .send 0]
      (s := some (.new 9 [5])) ⟨9, [5], rfl⟩ (by decide)
  obtain ⟨τ, s, hrun, hne, hdead⟩ := hreq
  exact ⟨τ, s, hrun, hne, (replyConn_iff hrun).mpr hdead⟩

/-- A request without a nonce whose connection dies while the handler runs: the reply goes to a null
pointer. -/
theorem replyConn_null :
    ∃ τ s, (replySystem fun c => ⟨c, 0⟩).Run τ s ∧
      τ = [{ own := 1, dead := true, nonce := 0, recorded := [], sent := none }] ∧ s.isNone := by
  exact System.exists_run
    [.gotPdu 1 ⟨⟨1, 5, 0, 9, 0⟩, []⟩, .header 0, .call 0, .ret 0 0 [], .addReply 0, .choose 0 true]
    (s := some (.new 9 [5])) ⟨9, [5], rfl⟩ (by decide)

end Yfs.Rpc
