import Yfs.Lib.Link
import Yfs.Rpc.Server

/-!
# One server instance executes each call at most once

A client and an xid name a call (`Key`). A `Slot` is what an instance has done about a call so far:
nothing; a job was told to execute it; the job is in the handler; the handler has returned; the reply
is in the window. The slot determines the record in the reply window, the events of the call so far
(`Slot.history`: the handler was called at most once, and at most one result came out) and which job
works on the call. `ServerOk` says that there are such slots, and what holds of the jobs and the
saved connections; `ServerOk.step` that every step keeps it. What it says about the events alone
(`EventsOk`) survives the end of the instance.
-/

namespace Yfs.Rpc

open Yfs.Lib Function

/-- A call: the client's nonce and the xid. -/
abbrev Key := UInt32 × UInt32

def Request.key (req : Request) : Key := (req.hdr.cltNonce, req.hdr.xid)

/-- The call whose handler an event is about. -/
def ServerEvent.key : ServerEvent → Option Key
  | executed req => some req.key
  | produced req _ _ => some req.key
  | _ => none

/-- What happened in the handler for call `k`. -/
def history (k : Key) (τ : List ServerEvent) : List ServerEvent :=
  τ.filter fun e => e.key = some k

/-! ## Slots -/

/-- What the instance has done about a call. -/
inductive Slot where
  | fresh
  /-- Job `j` is to execute it. -/
  | new (j : Nat)
  /-- Job `j` is in the handler. -/
  | running (j : Nat) (req : Request)
  /-- The handler has returned to job `j`. -/
  | answered (j : Nat) (req : Request) (b : Reply)
  /-- The reply is in the window. -/
  | stored (req : Request) (b : Reply)

/-- A job's part in a call. -/
inductive Stage where
  | new
  | running (req : Request)
  | answered (req : Request) (b : Reply)

@[simp] def JobPc.stage (req : Request) : JobPc → Option Stage
  | .new => some .new
  | .running => some (.running req)
  | .reply b => some (.answered req b)
  | _ => none

/-- The call a job works on, for clients that want at-most-once semantics. -/
def Job.stage (job : Job) : Option (Key × Stage) :=
  if job.req.hdr.cltNonce = 0 then none
  else (job.pc.stage job.req).map fun o => (job.req.key, o)

@[simp] def Slot.stage : Slot → Option (Nat × Stage)
  | .new j => some (j, .new)
  | .running j req => some (j, .running req)
  | .answered j req b => some (j, .answered req b)
  | _ => none

/-- The record in the reply window. -/
@[simp] def Slot.entry (xid : UInt32) : Slot → Option ReplyT
  | .fresh => none
  | .stored _ b => some ⟨xid, false, some b⟩
  | _ => some ⟨xid, true, none⟩

@[simp] def Slot.history : Slot → List ServerEvent
  | .fresh | .new _ => []
  | .running _ req => [.executed req]
  | .answered _ req b | .stored req b => [.executed req, .produced req b.hdr.ret b.body]

/-- The slot of a call that job `j` has in hand. -/
def Stage.slot (j : Nat) : Stage → Slot
  | .new => .new j
  | .running req => .running j req
  | .answered req b => .answered j req b

theorem Stage.stage_slot (o : Stage) (j : Nat) : (o.slot j).stage = some (j, o) := by
  cases o <;> rfl

/-- Until the reply is stored, the record in the window has none. -/
theorem Stage.entry_slot (o : Stage) (j : Nat) (xid : UInt32) :
    (o.slot j).entry xid = some ⟨xid, true, none⟩ := by
  cases o <;> rfl

theorem Slot.eq_of_stage {S : Slot} {j : Nat} {o : Stage} (h : S.stage = some (j, o)) :
    S = o.slot j := by
  cases S with
  | fresh | stored => cases h
  | new | running | answered =>
      cases h
      rfl

/-- The slots are those of the state `s` after the events `τ`. -/
structure SlotsOk (s : Rpcs) (τ : List ServerEvent) (slot : Key → Slot) : Prop where
  window : ∀ clt, WindowOk (s.replyWindow clt)
  link : Linked (fun j => s.jobs[j]?.bind Job.stage) (fun k => (slot k).stage)
  entry : ∀ k, Rpc.entry (s.replyWindow k.1) k.2 = (slot k).entry k.2
  history : ∀ k, k.1 ≠ 0 → history k τ = (slot k).history
  xid : ∀ k req b, slot k = .stored req b → b.hdr.xid = k.2

/-! ## Jobs and events -/

/-- The request is for the instance with this nonce, or for whichever instance gets it. -/
def Request.Accepted (req : Request) (nonce : UInt32) : Prop :=
  req.hdr.srvNonce = 0 ∨ req.hdr.srvNonce = nonce

/-- The client of `req` has sent something over `c`. -/
def From (τ : List ServerEvent) (c : Conn) (clt : UInt32) : Prop :=
  ∃ req, .received c req ∈ τ ∧ req.hdr.cltNonce = clt

/-- `b` answers `req`: it echoes the xid, and unless it reports a failure it is what the handler
produced for this call. -/
def Answers (τ : List ServerEvent) (req : Request) (b : Reply) : Prop :=
  b.hdr.xid = req.hdr.xid ∧
    (b.hdr.ret < 0 ∨ ∃ req', req'.key = req.key ∧ .produced req' b.hdr.ret b.body ∈ τ)

structure EventsOk (nonce : UInt32) (τ : List ServerEvent) : Prop where
  executed : ∀ req, .executed req ∈ τ → req.Accepted nonce ∧ ∃ c, .received c req ∈ τ
  produced : ∀ req ret body, .produced req ret body ∈ τ → .executed req ∈ τ ∧
    (req.hdr.proc = bindProc → ret = 0 ∧ body = intBody nonce)
  sent : ∀ c b, .sent c b ∈ τ → ∃ req, (∃ c', .received c' req ∈ τ) ∧
    From τ c req.hdr.cltNonce ∧ Answers τ req b
  once : ∀ k : Key, k.1 ≠ 0 → ∃ slot : Slot, history k τ = slot.history

structure JobOk (nonce : UInt32) (τ : List ServerEvent) (job : Job) : Prop where
  received : ∃ c, .received c job.req ∈ τ
  conn : From τ job.conn job.req.hdr.cltNonce
  accepted : job.pc ≠ .arrived → job.pc ≠ .finished → job.req.Accepted nonce
  nonzero : job.pc = .save ∨ job.pc = .check → job.req.hdr.cltNonce ≠ 0
  running : job.pc = .running → .executed job.req ∈ τ
  reply : ∀ b, job.pc = .reply b →
    b.hdr.xid = job.req.hdr.xid ∧ .produced job.req b.hdr.ret b.body ∈ τ
  answer : ∀ b, job.pc = .choose b ∨ job.pc = .send b → Answers τ job.req b

structure ServerOk (s : Rpcs) (τ : List ServerEvent) : Prop where
  events : EventsOk s.nonce τ
  jobs : ∀ job ∈ s.jobs, JobOk s.nonce τ job
  conns : ∀ clt c, s.conns clt = some c → From τ c clt
  slots : ∃ slot, SlotsOk s τ slot

theorem serverOk_new (nonce : UInt32) (procs : List UInt32) : ServerOk (.new nonce procs) [] where
  events := ⟨by simp, by simp, by simp, fun _ _ => ⟨.fresh, rfl⟩⟩
  jobs := by simp [Rpcs.new]
  conns := by simp [Rpcs.new]
  slots := ⟨fun _ => .fresh, fun _ => windowOk_nil, by intro j k o; simp [Rpcs.new], by simp [Rpcs.new],
    fun _ _ => rfl, by simp⟩

section
variable {nonce : UInt32} {s : Rpcs} {τ es : List ServerEvent} {slot : Key → Slot} {j : Nat}
  {job job' : Job} {req : Request} {b : Reply} {k : Key} {c : Conn} {clt : UInt32}

/-! ## More events -/

theorem From.append (h : From τ c clt) : From (τ ++ es) c clt := by
  obtain ⟨req, hr, hc⟩ := h
  exact ⟨req, by simp [hr], hc⟩

theorem Answers.append (h : Answers τ req b) : Answers (τ ++ es) req b := by
  refine ⟨h.1, h.2.imp_right ?_⟩
  rintro ⟨req', hk, hp⟩
  exact ⟨req', hk, by simp [hp]⟩

theorem JobOk.append (h : JobOk nonce τ job) : JobOk nonce (τ ++ es) job where
  received := h.received.imp fun c hc => by simp [hc]
  conn := h.conn.append
  accepted := h.accepted
  nonzero := h.nonzero
  running hp := by simp [h.running hp]
  reply b hp := ⟨(h.reply b hp).1, by simp [(h.reply b hp).2]⟩
  answer b hp := (h.answer b hp).append

theorem history_append : history k (τ ++ es) = history k τ ++ history k es := by
  simp [history]

theorem history_eq_nil (h : ∀ e ∈ es, e.key ≠ some k) : history k es = [] := by
  simpa [history] using h

/-- The new events are justified by all events so far. -/
theorem EventsOk.append (h : EventsOk nonce τ)
    (hexec : ∀ req, .executed req ∈ es → req.Accepted nonce ∧ ∃ c, .received c req ∈ τ)
    (hprod : ∀ req ret body, .produced req ret body ∈ es → .executed req ∈ τ ∧
      (req.hdr.proc = bindProc → ret = 0 ∧ body = intBody nonce))
    (hsent : ∀ c b, .sent c b ∈ es → ∃ req, (∃ c', .received c' req ∈ τ) ∧
      From τ c req.hdr.cltNonce ∧ Answers τ req b)
    (honce : ∀ k : Key, k.1 ≠ 0 → ∃ slot : Slot, history k (τ ++ es) = slot.history) :
    EventsOk nonce (τ ++ es) where
  executed req hr := by
    rcases List.mem_append.mp hr with hr | hr
    · exact ⟨(h.executed req hr).1, (h.executed req hr).2.imp fun c hc => by simp [hc]⟩
    · exact ⟨(hexec req hr).1, (hexec req hr).2.imp fun c hc => by simp [hc]⟩
  produced req ret body hr := by
    rcases List.mem_append.mp hr with hr | hr
    · exact ⟨by simp [(h.produced req ret body hr).1], (h.produced req ret body hr).2⟩
    · exact ⟨by simp [(hprod req ret body hr).1], (hprod req ret body hr).2⟩
  sent c b hs := by
    have : ∃ req, (∃ c', .received c' req ∈ τ) ∧ From τ c req.hdr.cltNonce ∧ Answers τ req b := by
      rcases List.mem_append.mp hs with hs | hs
      · exact h.sent c b hs
      · exact hsent c b hs
    obtain ⟨req, ⟨c', hr⟩, hfrom, hans⟩ := this
    exact ⟨req, ⟨c', by simp [hr]⟩, hfrom.append, hans.append⟩
  once := honce

theorem ServerOk.append (h : ServerOk s τ) (hev : EventsOk s.nonce (τ ++ es))
    (hes : ∀ k : Key, k.1 ≠ 0 → history k es = []) : ServerOk s (τ ++ es) where
  events := hev
  jobs job hj := (h.jobs job hj).append
  conns clt c hc := (h.conns clt c hc).append
  slots := by
    obtain ⟨slot, hs⟩ := h.slots
    exact ⟨slot, hs.window, hs.link, hs.entry,
      fun k hk => by rw [history_append, hes k hk, List.append_nil, hs.history k hk], hs.xid⟩

/-- Events that are about no handler. -/
theorem ServerOk.append_unkeyed (h : ServerOk s τ) (hkey : ∀ e ∈ es, e.key = none)
    (hsent : ∀ c b, .sent c b ∈ es → ∃ req, (∃ c', .received c' req ∈ τ) ∧
      From τ c req.hdr.cltNonce ∧ Answers τ req b) : ServerOk s (τ ++ es) := by
  have hes : ∀ k : Key, history k es = [] := fun k =>
    history_eq_nil fun e he => by simp [hkey e he]
  refine h.append (h.events.append (fun req hr => ?_) (fun req ret body hr => ?_) hsent
    fun k hk => ?_) fun k _ => hes k
  · cases hkey _ hr
  · cases hkey _ hr
  · rw [history_append, hes, List.append_nil]
    exact h.events.once k hk

/-! ## A job moves -/

theorem setJob_getElem? (s : Rpcs) (hj : s.jobs[j]? = some job) (i : Nat) :
    (s.setJob j job').jobs[i]? = if i = j then some job' else s.jobs[i]? := by
  have hlt := (List.getElem?_eq_some_iff.mp hj).1
  simp only [Rpcs.setJob, List.getElem?_set]
  grind

/-- A job moves without taking up or laying down a call. -/
theorem ServerOk.setJob (h : ServerOk s τ) (hj : s.jobs[j]? = some job)
    (hstage : job'.stage = job.stage) (hok : JobOk s.nonce τ job') :
    ServerOk (s.setJob j job') τ where
  events := h.events
  jobs job hm := by
    rcases List.mem_or_eq_of_mem_set hm with hm | rfl
    · exact h.jobs job hm
    · exact hok
  conns := h.conns
  slots := by
    obtain ⟨slot, hs⟩ := h.slots
    refine ⟨slot, hs.window, hs.link.congr (fun i => ?_) fun _ => rfl, hs.entry, hs.history, hs.xid⟩
    rw [setJob_getElem? s hj]
    split
    · simp_all
    · rfl

/-- Job `j` and the slot of call `k` move together, with the window of the client and the events of
the call. -/
theorem SlotsOk.move (h : SlotsOk s τ slot) (hj : s.jobs[j]? = some job) {S : Slot}
    {w : List ReplyT}
    (hold : (job.stage = none ∧ (slot k).stage = none) ∨ ∃ o, job.stage = some (k, o))
    (hnew : (job'.stage = none ∧ S.stage = none) ∨
      ∃ o, job'.stage = some (k, o) ∧ S.stage = some (j, o))
    (hw : WindowOk w)
    (hentry : ∀ y, Rpc.entry w y =
      if y = k.2 then S.entry k.2 else Rpc.entry (s.replyWindow k.1) y)
    (hhist : (slot k).history ++ Rpc.history k es = S.history)
    (hother : ∀ k', k' ≠ k → Rpc.history k' es = [])
    (hxid : ∀ req b, S = .stored req b → b.hdr.xid = k.2) :
    SlotsOk ({ s with replyWindow := update s.replyWindow k.1 w }.setJob j job') (τ ++ es)
      (update slot k S) where
  window clt := by
    by_cases hc : clt = k.1
    · subst hc
      simpa [Rpcs.setJob] using hw
    · simpa [Rpcs.setJob, hc] using h.window clt
  link := by
    -- only job `j` and the slot of `k` change, and they change together
    have hjobs : ∀ i, ({ s with replyWindow := update s.replyWindow k.1 w }.setJob j job').jobs[i]? =
        if i = j then some job' else s.jobs[i]? := setJob_getElem? s hj
    refine h.link.frame j k (fun i hi => ?_) (fun x hx => by simp [hx]) ?_ ?_
    · rw [hjobs, if_neg hi]
    · simpa [hj] using hold
    · simpa [hjobs] using hnew
  entry k' := by
    simp only [Rpcs.setJob]
    by_cases hk' : k' = k
    · subst hk'
      simp [hentry]
    · rw [update_of_ne hk']
      by_cases hc : k'.1 = k.1
      · have hx : k'.2 ≠ k.2 := fun hx => hk' (Prod.ext hc hx)
        rw [← h.entry k']
        simp [hc, hentry, hx]
      · simp [hc, h.entry]
  history k' hk' := by
    rw [history_append, h.history k' hk']
    by_cases hk : k' = k
    · subst hk
      simpa using hhist
    · rw [hother k' hk, update_of_ne hk, List.append_nil]
  xid k' req b hs := by
    by_cases hk : k' = k
    · subst hk
      exact hxid req b (by simpa using hs)
    · exact h.xid k' req b (by simpa [hk] using hs)

/-- Both sides of a move, given what it does to the slots. -/
theorem ServerOk.move (h : ServerOk s τ) (hev : EventsOk s.nonce (τ ++ es)) {w : UInt32 → List ReplyT}
    (hok : JobOk s.nonce (τ ++ es) job')
    (hs : ∃ slot, SlotsOk ({ s with replyWindow := w }.setJob j job') (τ ++ es) slot) :
    ServerOk ({ s with replyWindow := w }.setJob j job') (τ ++ es) where
  events := hev
  jobs job hm := by
    rcases List.mem_or_eq_of_mem_set hm with hm | rfl
    · exact (h.jobs job hm).append
    · exact hok
  conns clt c hc := (h.conns clt c hc).append
  slots := hs

/-! ## The sections of `dispatch` -/

theorem ServerOk.gotPdu (h : ServerOk s τ) (c : Conn) (req : Request) :
    ServerOk { s with jobs := s.jobs ++ [⟨c, req, .arrived⟩] } (τ ++ [.received c req]) := by
  have h' : ServerOk s (τ ++ [.received c req]) :=
    h.append_unkeyed (by simp [ServerEvent.key]) (by simp)
  refine ⟨h'.events, fun job hm => ?_, h'.conns, ?_⟩
  · rcases List.mem_append.mp hm with hm | hm
    · exact h'.jobs job hm
    · simp only [List.mem_singleton] at hm
      subst hm
      exact ⟨⟨c, by simp⟩, ⟨req, by simp⟩, by simp, by simp, by simp, by simp, by simp⟩
  · obtain ⟨slot, hs⟩ := h'.slots
    refine ⟨slot, hs.window, hs.link.congr (fun i => ?_) fun _ => rfl, hs.entry, hs.history, hs.xid⟩
    rcases lt_trichotomy i s.jobs.length with hi | rfl | hi
    · rw [List.getElem?_append_left hi]
    · simp [Job.stage]
    · have hnone : ∀ job : Job, (s.jobs ++ [job])[i]? = none := fun job =>
        List.getElem?_eq_none (by rw [List.length_append]; exact hi)
      simp only [hnone, List.getElem?_eq_none hi.le]

theorem failure_answers {ret : Int32} (hret : ret < 0) : Answers τ req (Rpcs.failure req ret) :=
  ⟨rfl, .inl hret⟩

theorem ServerOk.header (h : ServerOk s τ) (hj : s.jobs[j]? = some job) (hpc : job.pc = .arrived)
    {s' : Rpcs} (hs' : (s.header j job).1 = some s') :
    ServerOk s' (τ ++ (s.header j job).2) := by
  have hok := h.jobs job (List.mem_of_getElem? hj)
  obtain ⟨rfl, hes⟩ | ⟨hnonce, hproc, rfl, hes⟩ := Rpcs.header_eq_some hs'
  · rw [hes]
    have h' : ServerOk s (τ ++ [.sent job.conn (Rpcs.failure job.req oldsrvFailure)]) := by
      refine h.append_unkeyed (by simp [ServerEvent.key]) ?_
      simp only [List.mem_singleton, ServerEvent.sent.injEq]
      rintro _ _ ⟨rfl, rfl⟩
      exact ⟨job.req, hok.received, hok.conn, failure_answers (by decide)⟩
    have hok' := h'.jobs job (List.mem_of_getElem? hj)
    exact h'.setJob hj (by simp [Job.stage, hpc])
      ⟨hok'.received, hok'.conn, by simp, by simp, by simp, by simp, by simp⟩
  · rw [hes, List.append_nil]
    have hacc : job.req.Accepted s.nonce := by
      simp only [Request.Accepted]
      tauto
    refine h.setJob hj ?_ ⟨hok.received, hok.conn, fun _ _ => hacc, ?_, ?_, ?_, ?_⟩
    · by_cases hc : job.req.hdr.cltNonce = 0 <;> simp [Job.stage, hpc, hc]
    all_goals by_cases hc : job.req.hdr.cltNonce = 0 <;> simp [hc]

theorem ServerOk.setConns (h : ServerOk s τ) {conns : UInt32 → Option Conn}
    (hc : ∀ clt c, conns clt = some c → From τ c clt) : ServerOk { s with conns } τ where
  events := h.events
  jobs := h.jobs
  conns := hc
  slots := by
    obtain ⟨slot, hs⟩ := h.slots
    exact ⟨slot, { hs with }⟩

theorem ServerOk.saveConn (h : ServerOk s τ) (hj : s.jobs[j]? = some job) (hpc : job.pc = .save)
    (older : Bool) : ServerOk (s.saveConn j job older) τ := by
  have hok := h.jobs job (List.mem_of_getElem? hj)
  refine ServerOk.setJob (h.setConns fun clt c hc => ?_) hj (by simp [Job.stage, hpc])
    ⟨hok.received, hok.conn, fun _ _ => hok.accepted (by simp [hpc]) (by simp [hpc]),
      fun _ => hok.nonzero (.inl hpc), by simp, by simp, by simp⟩
  split at hc
  · by_cases hclt : clt = job.req.hdr.cltNonce
    · subst hclt
      simp only [update_self, Option.some.injEq] at hc
      exact hc ▸ hok.conn
    · exact h.conns clt c (by simpa [hclt] using hc)
  · exact h.conns clt c hc

/-- The reply of a finished call, found in the window. -/
theorem SlotsOk.done (h : SlotsOk s τ slot) (hk : k.1 ≠ 0) {r : ReplyT}
    (he : Rpc.entry (s.replyWindow k.1) k.2 = some r) (hr : r.cbPresent = false) :
    ∃ req b, r.buf = some b ∧ b.hdr.xid = k.2 ∧ req.key = k ∧
      .produced req b.hdr.ret b.body ∈ τ := by
  rw [h.entry] at he
  have hhist := h.history k hk
  cases hs : slot k with
  | stored req b =>
      simp only [hs, Slot.entry, Option.some.injEq, Slot.history] at he hhist
      have hmem : .produced req b.hdr.ret b.body ∈ Rpc.history k τ := by simp [hhist]
      simp only [Rpc.history, List.mem_filter, ServerEvent.key, Option.some.injEq,
        decide_eq_true_eq] at hmem
      exact ⟨req, b, by simp [← he], h.xid k req b hs, hmem.2, hmem.1⟩
  | fresh => simp [hs] at he
  | _ =>
      simp only [hs, Slot.entry, Option.some.injEq] at he
      simp [← he] at hr

theorem JobOk.finished (h : JobOk nonce τ job) : JobOk nonce τ { job with pc := .finished } :=
  ⟨h.received, h.conn, by simp, by simp, by simp, by simp, by simp⟩

theorem JobOk.send (h : JobOk nonce τ job) (hacc : job.req.Accepted nonce)
    (hans : Answers τ job.req b) : JobOk nonce τ { job with pc := .send b } :=
  ⟨h.received, h.conn, fun _ _ => hacc, by simp, by simp, by simp, by
    rintro b' (hb | hb)
    · cases hb
    · cases hb
      exact hans⟩

theorem ServerOk.check (h : ServerOk s τ) (hj : s.jobs[j]? = some job) (hpc : job.pc = .check)
    {s' : Rpcs} (hs' : s.check j job = some s') : ServerOk s' τ := by
  have hok := h.jobs job (List.mem_of_getElem? hj)
  have hacc := hok.accepted (by simp [hpc]) (by simp [hpc])
  have hclt := hok.nonzero (.inr hpc)
  obtain ⟨slot, hs⟩ := h.slots
  obtain ⟨-, _, rfl, rfl⟩ := Rpcs.check_eq_some hs'
  rcases (hs.window job.req.hdr.cltNonce).check job.req.hdr.xid job.req.hdr.xidRep with
    ⟨r, he, hcheck⟩ | ⟨he, hcheck⟩ | ⟨he, hcheck⟩
  · -- a duplicate
    simp only [hcheck, update_eq_self]
    cases hr : r.cbPresent with
    | true =>
        simp only [if_true, Rpcs.afterCheck]
        exact h.setJob hj (by simp [Job.stage, hpc]) hok.finished
    | false =>
        obtain ⟨req', b, hb, hx, hkey, hprod⟩ := hs.done (k := job.req.key) hclt he hr
        simp only [Bool.false_eq_true, if_false, Rpcs.afterCheck, hb, Option.elim_some]
        exact h.setJob hj (by simp [Job.stage, hpc])
          (hok.send hacc ⟨hx, .inr ⟨req', hkey, hprod⟩⟩)
  · -- too old
    simp only [hcheck, update_eq_self, Rpcs.afterCheck]
    exact h.setJob hj (by simp [Job.stage, hpc]) (hok.send hacc (failure_answers (by decide)))
  · -- new
    have hfresh : slot job.req.key = .fresh := by
      have := (hs.entry job.req.key).symm.trans he
      cases hslot : slot job.req.key <;> simp_all
    simp only [hcheck, Rpcs.afterCheck]
    rw [← List.append_nil τ]
    refine h.move (by simpa using h.events) ?_ ⟨_, hs.move (k := job.req.key) (S := .new j) hj
      (.inl ⟨by simp [Job.stage, hpc], by simp [hfresh]⟩)
      (.inr ⟨.new, by simp [Job.stage, hclt], rfl⟩)
      ((hs.window _).insertNew he) ((hs.window _).entry_insertNew he) (by simp [hfresh, Rpc.history])
      (fun _ _ => rfl) (by simp)⟩
    simpa using (⟨hok.received, hok.conn, fun _ _ => hacc, by simp, by simp, by simp, by simp⟩ :
      JobOk s.nonce τ { job with pc := .new })

/-- The slot of the call a job is at work on. -/
theorem SlotsOk.slot_of_job (h : SlotsOk s τ slot) (hj : s.jobs[j]? = some job) {o : Stage}
    (hst : job.pc.stage job.req = some o) (hclt : job.req.hdr.cltNonce ≠ 0) :
    slot job.req.key = o.slot j := by
  apply Slot.eq_of_stage
  rw [← h.link j job.req.key o]
  simp [hj, Job.stage, hclt, hst, -JobPc.stage]

theorem history_singleton {e : ServerEvent} :
    history k [e] = if e.key = some k then [e] else [] := by
  simp [history, List.filter_cons]

/-- A job goes on with its call, and this is an event of the call. -/
theorem ServerOk.advance (h : ServerOk s τ) (hj : s.jobs[j]? = some job) {e : ServerEvent}
    (o o' : Stage) (hreq : job'.req = job.req) (hkey : e.key = some job.req.key)
    (hst : job.pc.stage job.req = some o) (hst' : job'.pc.stage job.req = some o')
    (hexec : ∀ req, .executed req = e → req.Accepted s.nonce ∧ ∃ c, .received c req ∈ τ)
    (hprod : ∀ req ret body, .produced req ret body = e → .executed req ∈ τ ∧
      (req.hdr.proc = bindProc → ret = 0 ∧ body = intBody s.nonce))
    (hok : JobOk s.nonce (τ ++ [e]) job')
    (hhist : (o'.slot j).history = (o.slot j).history ++ [e]) :
    ServerOk (s.setJob j job') (τ ++ [e]) := by
  have hev : (∀ k : Key, k.1 ≠ 0 → ∃ slot : Slot, history k (τ ++ [e]) = slot.history) →
      EventsOk s.nonce (τ ++ [e]) :=
    h.events.append (by simpa using hexec) (by simpa using hprod)
      (by rintro c b hs; simp only [List.mem_singleton] at hs; simp [← hs, ServerEvent.key] at hkey)
  by_cases hclt : job.req.hdr.cltNonce = 0
  · -- a client without at-most-once semantics: its calls have no slot
    have hes : ∀ k : Key, k.1 ≠ 0 → history k [e] = [] := fun k hk => by
      rw [history_singleton, if_neg]
      rw [hkey]
      rintro ⟨⟩
      exact hk hclt
    refine ServerOk.setJob (h.append (hev fun k hk => ?_) hes) hj (by simp [Job.stage, hreq, hclt]) hok
    rw [history_append, hes k hk, List.append_nil]
    exact h.events.once k hk
  · obtain ⟨slot, hs⟩ := h.slots
    have hS := hs.slot_of_job hj hst hclt
    have hentry : Rpc.entry (s.replyWindow job.req.key.1) job.req.key.2 =
        (o'.slot j).entry job.req.key.2 := by
      rw [hs.entry, hS, Stage.entry_slot, Stage.entry_slot]
    have hmove : SlotsOk ({ s with
          replyWindow := update s.replyWindow job.req.key.1 (s.replyWindow job.req.key.1)
        }.setJob j job') (τ ++ [e]) (update slot job.req.key (o'.slot j)) := hs.move hj
      (.inr ⟨o, by simp [Job.stage, hclt, hst, -JobPc.stage]⟩)
      (.inr ⟨o', by simp [Job.stage, hreq, hclt, hst', -JobPc.stage], o'.stage_slot j⟩) (hs.window _)
      (fun y => by
        split
        · rename_i hy
          rw [hy, hentry]
        · rfl)
      (by rw [history_singleton, if_pos hkey, hS, hhist])
      (fun k' hk' => by
        rw [history_singleton, if_neg]
        rw [hkey]
        rintro ⟨⟩
        exact hk' rfl)
      (fun req b hstored => by
        have hstage := o'.stage_slot j
        rw [hstored] at hstage
        cases hstage)
    rw [update_eq_self] at hmove
    exact h.move (w := s.replyWindow) (hev fun k hk => ⟨_, hmove.history k hk⟩) hok ⟨_, hmove⟩

/-- The handler is called. -/
theorem ServerOk.call (h : ServerOk s τ) (hj : s.jobs[j]? = some job) (hpc : job.pc = .new) :
    ServerOk (s.setJob j { job with pc := .running }) (τ ++ [.executed job.req]) := by
  have hok := h.jobs job (List.mem_of_getElem? hj)
  have hacc := hok.accepted (by simp [hpc]) (by simp [hpc])
  refine h.advance hj .new (.running job.req) rfl rfl (by simp [hpc]) rfl ?_ (by simp)
    ⟨hok.append.received, hok.append.conn, fun _ _ => hacc, by simp, by simp, by simp, by simp⟩ rfl
  rintro req ⟨⟩
  exact ⟨hacc, hok.received⟩

/-- The handler returns. -/
theorem ServerOk.ret (h : ServerOk s τ) (hj : s.jobs[j]? = some job) (hpc : job.pc = .running)
    {r : Int32} {body : Bytes} {s' : Rpcs} (hs' : s.ret j job r body = some (some s', es)) :
    ServerOk s' (τ ++ es) := by
  have hok := h.jobs job (List.mem_of_getElem? hj)
  have hacc := hok.accepted (by simp [hpc]) (by simp [hpc])
  obtain ⟨hbind, hr, rfl, rfl⟩ := Rpcs.ret_eq_some hs'
  refine h.advance hj (.running job.req)
    (.answered job.req ⟨⟨job.req.hdr.xid, r⟩, body⟩) rfl rfl (by simp [hpc]) rfl (by simp) ?_
    ⟨hok.append.received, hok.append.conn, fun _ _ => hacc, by simp, by simp, by simp, by simp⟩ rfl
  rintro req ret body ⟨⟩
  refine ⟨hok.running hpc, fun hp => ?_⟩
  tauto

/-- The reply is recorded. -/
theorem ServerOk.addReply (h : ServerOk s τ) (hj : s.jobs[j]? = some job) (hpc : job.pc = .reply b)
    {s' : Rpcs} (hs' : s.addReply j job b = some s') : ServerOk s' τ := by
  have hok := h.jobs job (List.mem_of_getElem? hj)
  have hacc := hok.accepted (by simp [hpc]) (by simp [hpc])
  obtain ⟨hx, hprod⟩ := hok.reply b hpc
  have hok' : JobOk s.nonce τ { job with pc := .choose b } :=
    ⟨hok.received, hok.conn, fun _ _ => hacc, by simp, by simp, by simp, by
      rintro b' (hb | hb)
      · cases hb
        exact ⟨hx, .inr ⟨job.req, rfl, hprod⟩⟩
      · cases hb⟩
  obtain ⟨hclt, rfl⟩ | ⟨hclt, -, rfl⟩ := Rpcs.addReply_eq_some hs'
  · exact h.setJob hj (by simp_all [Job.stage]) hok'
  obtain ⟨slot, hs⟩ := h.slots
  have hslot : slot job.req.key = .answered j job.req b :=
    hs.slot_of_job hj (o := .answered job.req b) (by simp [hpc]) hclt
  have he : entry (s.replyWindow job.req.hdr.cltNonce) job.req.hdr.xid =
      some ⟨job.req.hdr.xid, true, none⟩ := by
    have := hs.entry job.req.key
    rwa [hslot] at this
  rw [← List.append_nil τ]
  exact h.move (by simpa using h.events) (by simpa using hok') ⟨_, hs.move (k := job.req.key)
    (S := .stored job.req b) hj (.inr ⟨.answered job.req b, by simp [Job.stage, hclt, hpc]⟩)
    (.inl ⟨by simp [Job.stage], rfl⟩) (hs.window _).addReply ((hs.window _).entry_addReply he)
    (by simp [hslot, Rpc.history]) (fun _ _ => rfl) (by rintro _ _ ⟨⟩; exact hx)⟩

theorem ServerOk.choose (h : ServerOk s τ) (hj : s.jobs[j]? = some job) (hpc : job.pc = .choose b)
    {dead : Bool} {s' : Rpcs} (hs' : s.choose j job b dead = some s') : ServerOk s' τ := by
  have hok := h.jobs job (List.mem_of_getElem? hj)
  have hacc := hok.accepted (by simp [hpc]) (by simp [hpc])
  have hsend := hok.send hacc (hok.answer b (.inl hpc))
  obtain ⟨c, -, -, hc, rfl⟩ | ⟨-, rfl⟩ := Rpcs.choose_eq_some hs'
  · exact h.setJob hj (by simp [Job.stage, hpc]) { hsend with conn := h.conns _ c hc }
  · exact h.setJob hj (by simp [Job.stage, hpc]) hsend

theorem ServerOk.send (h : ServerOk s τ) (hj : s.jobs[j]? = some job) (hpc : job.pc = .send b) :
    ServerOk (s.setJob j { job with pc := .finished }) (τ ++ [.sent job.conn b]) := by
  have hok := h.jobs job (List.mem_of_getElem? hj)
  have h' : ServerOk s (τ ++ [.sent job.conn b]) := by
    refine h.append_unkeyed (by simp [ServerEvent.key]) ?_
    simp only [List.mem_singleton, ServerEvent.sent.injEq]
    rintro _ _ ⟨rfl, rfl⟩
    exact ⟨job.req, hok.received, hok.conn, hok.answer _ (.inr hpc)⟩
  exact h'.setJob hj (by simp [Job.stage, hpc]) (h'.jobs job (List.mem_of_getElem? hj)).finished

/-- Every step keeps the invariant. -/
theorem ServerOk.step {a : ServerAction} {s' : Rpcs} (h : ServerOk s τ)
    (hs : s.Step a (some s') es) : ServerOk s' (τ ++ es) := by
  generalize ho : some s' = o at hs
  cases hs with
  | gotPdu =>
      cases ho
      exact h.gotPdu _ _
  | header hj hpc => exact h.header hj hpc ho.symm
  | saveConn hj hpc =>
      cases ho
      rw [List.append_nil]
      exact h.saveConn hj hpc _
  | check hj hpc =>
      rw [List.append_nil]
      exact h.check hj hpc ho.symm
  | call hj hpc =>
      cases ho
      exact h.call hj hpc
  | @ret j job r body o hj hpc hr =>
      obtain ⟨o, es⟩ := o
      subst ho
      exact h.ret hj hpc hr
  | addReply hj hpc =>
      rw [List.append_nil]
      exact h.addReply hj hpc ho.symm
  | choose hj hpc =>
      rw [List.append_nil]
      exact h.choose hj hpc ho.symm
  | send hj hpc =>
      cases ho
      exact h.send hj hpc

/-- An instance that aborts does nothing else. -/
theorem Rpcs.Step.aborted {a : ServerAction} (hs : s.Step a none es) : es = [] := by
  generalize ho : (none : Option Rpcs) = o at hs
  cases hs with
  | header hj hpc =>
      revert ho
      simp only [Rpcs.header]
      split
      · simp
      · split <;> simp
  | @ret j job r body o hj hpc hr =>
      simp only [Rpcs.ret] at hr
      split at hr
      · cases hr
      · split at hr <;> cases hr
        · rfl
        · cases ho
  | _ => simp_all

end

end Yfs.Rpc
