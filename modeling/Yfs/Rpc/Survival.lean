import Yfs.Rpc.Dispatch
import Yfs.Rpc.Execution

/-!
# Which requests a server survives

A request should never take the server down: `dispatch` should drop it or send one reply, and a call of
a procedure that does not exist, or with arguments of the wrong types, should get a negative status.
`Survives` says this of a PDU that arrives in some state, whatever the other jobs do meanwhile.

It does not hold of every PDU. `dispatch` aborts if the procedure is unknown, if the xid is not beyond
xid_rep, if the arguments of a new request cannot be unmarshalled, if a handler returns a negative
status; and it follows a null pointer if a client without a nonce has lost its connection when the
reply is ready. `survives_iff` says that there is nothing else.
-/

namespace Yfs.Rpc

open Yfs.Lib
open Yfs.Wire (Item Encodes fn fn_spec encodes_iff itemsM parse maxPdu rpcHeaderSz)

/-! ## What should be the case -/

/-- The replies that job `j` has sent. -/
def jobReplies (j : Nat) (τ : List (Nat × ServerEvent)) : List Reply :=
  τ.filterMap fun e => match e with
    | (i, .sent _ b) => if i = j then some b else none
    | _ => none

namespace Server

/-- The header that `dispatch` unpacks. -/
def hdr (p : Bytes) : ReqHeader := (unpackReq p).1.hdr

def Registered (s : Rpcs) (proc : UInt32) : Prop := proc = bindProc ∨ proc ∈ s.procs

/-- The arguments are ones of the procedure. -/
def Typed (H : UInt32 → Handler) (s : Server) (p : Bytes) (vs : List Item) : Prop :=
  Encodes (s.handler H (hdr p).proc).args (p.drop rpcHeaderSz) vs

/-- There is no such procedure, or it does not take these arguments. -/
def BadCall (H : UInt32 → Handler) (s : Server) (p : Bytes) : Prop :=
  ¬ Registered s.rpcs (hdr p).proc ∨ ¬ ∃ vs, s.Typed H p vs

/-- The call has a record in the reply window. -/
def Seen (s : Rpcs) (p : Bytes) : Prop := entry (s.replyWindow (hdr p).cltNonce) (hdr p).xid ≠ none

/-- What should hold when a server has got the PDU `p` in the state `s`, made it job `j`, and come to
`t` with the events `τ`. -/
structure Handled (H : UInt32 → Handler) (s : Server) (p : Bytes) (j : Nat)
    (τ : List (Nat × ServerEvent)) (t : Server) : Prop where
  /-- The job does not abort. -/
  safe : ∀ a es, t.job H j a ≠ some (none, es)
  /-- By itself it can go on to its end, if the method and `connection::send` return. -/
  returns : ∃ (as : List JobAction) (τ' : _) (t' : Server) (job : Job),
    (serverSystem H t).exec (some t) (as.map (.job j)) = some (some t', τ') ∧
    t'.rpcs.jobs[j]? = some job ∧ job.pc = .finished
  once : (jobReplies j τ).length ≤ 1
  negative : s.BadCall H p → ¬ Seen s.rpcs p → ∀ b ∈ jobReplies j τ, b.hdr.ret < 0
  /-- A call that should get a negative status gets one. -/
  answered : (unpackReq p).2 = true → s.BadCall H p → ¬ Seen s.rpcs p →
    ∀ job, t.rpcs.jobs[j]? = some job → job.pc = .finished → jobReplies j τ ≠ []

/-- The server survives the PDU, however it goes on. -/
def Survives (H : UInt32 → Handler) (s : Server) (c : Conn) (p : Bytes) : Prop :=
  ∀ τ t, (serverSystem H (s.gotPdu c p)).Run τ (some t) → s.Handled H p s.rpcs.jobs.length τ t

/-! ## What is the case -/

/-- The request is for an old instance. -/
def OldServer (s : Rpcs) (p : Bytes) : Prop := (hdr p).srvNonce ≠ 0 ∧ (hdr p).srvNonce ≠ s.nonce

/-- The handler takes the arguments, and its method returns no negative status for them. -/
def Executable (H : UInt32 → Handler) (s : Server) (p : Bytes) : Prop :=
  ∃ vs, s.Typed H p vs ∧ ∀ k, 0 ≤ ((s.handler H (hdr p).proc).meth vs k).1

/-- The PDUs that do no harm: short ones, ones for an old instance, and those for a procedure that
exists, from a client with a nonce, with an xid beyond xid_rep, that the handler can execute or that
are not new. -/
def Harmless (H : UInt32 → Handler) (s : Server) (p : Bytes) : Prop :=
  (unpackReq p).2 = false ∨ OldServer s.rpcs p ∨
    (Registered s.rpcs (hdr p).proc ∧ (hdr p).cltNonce ≠ 0 ∧ (hdr p).xidRep < (hdr p).xid ∧
      (s.Executable H p ∨ (checkduplicateAndUpdate (s.rpcs.replyWindow (hdr p).cltNonce) (hdr p).xid
        (hdr p).xidRep).2 ≠ .new))

end Server

open Server

section
variable {H : UInt32 → Handler} {s s' t t' : Server} {p : Bytes} {j : Nat} {job : Job} {c : Conn}

/-! ## What a step leaves alone -/

/-- All xids in the window are larger. -/
def Beyond (w : List ReplyT) (xid : UInt32) : Prop := w ≠ [] ∧ ∀ r ∈ w, xid < r.xid

/-- The window `w` may become `w'`: the records stay, and an xid in front of them stays in front. -/
structure WindowGrows (w w' : List ReplyT) : Prop where
  seen : ∀ xid, entry w xid ≠ none → entry w' xid ≠ none
  beyond : ∀ xid, Beyond w xid → Beyond w' xid

theorem WindowGrows.rfl {w : List ReplyT} : WindowGrows w w := ⟨fun _ => id, fun _ => id⟩

theorem entry_ne_none {w : List ReplyT} {xid : UInt32} : entry w xid ≠ none ↔ ∃ r ∈ w, r.xid = xid := by
  rw [ne_eq, entry_eq_none]
  simp

/-- A request is not new if it has a record, or is in front of all records. -/
theorem WindowOk.check_new_iff {w : List ReplyT} (h : WindowOk w) (xid xidRep : UInt32) :
    (checkduplicateAndUpdate w xid xidRep).2 ≠ .new ↔ entry w xid ≠ none ∨ Beyond w xid := by
  cases he : entry w xid with
  | some r =>
      simp only [ne_eq, reduceCtorEq, not_false_eq_true, true_or, iff_true]
      rcases h.check xid xidRep with ⟨r', -, hc⟩ | ⟨he', -⟩ | ⟨he', -⟩
      · rw [hc]
        cases r'.cbPresent <;> simp
      · rw [he] at he'
        cases he'
      · rw [he] at he'
        cases he'
  | none =>
      rw [h.check_none he, Beyond, ← h.front_gt]
      split
      · rename_i hfront
        simp [hfront]
      · rename_i hfront
        simp [hfront]

theorem WindowOk.check_grows {w : List ReplyT} (h : WindowOk w) (xid xidRep : UInt32) :
    WindowGrows w (checkduplicateAndUpdate w xid xidRep).1 := by
  cases he : entry w xid with
  | some r =>
      rcases h.check xid xidRep with ⟨r', -, hc⟩ | ⟨he', -⟩ | ⟨he', -⟩
      · rw [hc]
        exact .rfl
      · rw [he] at he'
        cases he'
      · rw [he] at he'
        cases he'
  | none =>
      rw [h.check_none he]
      split
      · exact .rfl
      · rename_i hfront
        constructor
        · intro y hy
          obtain ⟨r, hr, hx⟩ := entry_ne_none.mp hy
          exact entry_ne_none.mpr ⟨r, mem_insertNew.mpr (.inr hr), hx⟩
        · rintro y ⟨hne, hlt⟩
          rw [h.front_gt, not_and] at hfront
          have hle := hfront hne
          push Not at hle
          obtain ⟨r, hr, hrx⟩ := hle
          refine ⟨List.ne_nil_of_mem (mem_insertNew.mpr (.inr hr)), fun r' hr' => ?_⟩
          rcases mem_insertNew.mp hr' with rfl | hr'
          · -- the new record comes after one that was there
            exact UInt32.lt_of_lt_of_le (hlt r hr) (UInt32.not_lt.mp hrx)
          · exact hlt r' hr'

theorem WindowOk.addReply_grows {w : List ReplyT} (h : WindowOk w) (xid : UInt32) (b : Reply) :
    WindowGrows w (Rpc.addReply xid b w) := by
  have hmem : ∀ P : UInt32 → Prop, (∃ r ∈ Rpc.addReply xid b w, P r.xid) ↔ ∃ r ∈ w, P r.xid := by
    intro P
    rw [h.addReply_eq]
    simp only [List.mem_map, exists_exists_and_eq_and]
    refine exists_congr fun r => and_congr_right fun _ => ?_
    split <;> rfl
  constructor
  · intro y hy
    rw [entry_ne_none] at hy ⊢
    exact (hmem (· = y)).mpr hy
  · rintro y ⟨hne, hlt⟩
    constructor
    · rw [h.addReply_eq]
      simpa using hne
    · intro r hr
      by_contra hle
      obtain ⟨r', hr', hle'⟩ := (hmem fun x => ¬ y < x).mp ⟨r, hr, hle⟩
      exact hle' (hlt r' hr')

/-- An instance goes on: what it knows of its clients and their calls, it goes on knowing. -/
structure Rpcs.Grows (s s' : Rpcs) : Prop where
  nonce : s'.nonce = s.nonce
  procs : s'.procs = s.procs
  window : ∀ clt, WindowGrows (s.replyWindow clt) (s'.replyWindow clt)
  conns : ∀ clt, s.conns clt ≠ none → s'.conns clt ≠ none

theorem Rpcs.Grows.rfl {s : Rpcs} : s.Grows s := ⟨.refl _, .refl _, fun _ => .rfl, fun _ => id⟩

/-- What a section of `dispatch` for job `j` does to an instance. -/
structure Rpcs.Moves (s s' : Rpcs) (j : Nat) : Prop where
  grows : s.Grows s'
  others : ∀ i, i ≠ j → s'.jobs[i]? = s.jobs[i]?
  length : s'.jobs.length = s.jobs.length
  /-- There is no connection to save for clients without a nonce. -/
  zero : s.conns 0 = none → s'.conns 0 = none

theorem Rpcs.Moves.setJob {s r : Rpcs} (j : Nat) (job : Job) (hjobs : r.jobs = s.jobs)
    (hg : s.Grows r) (hzero : s.conns 0 = none → r.conns 0 = none) : s.Moves (r.setJob j job) j where
  grows := ⟨hg.nonce, hg.procs, hg.window, hg.conns⟩
  others i hi := by
    show (r.jobs.set j job)[i]? = _
    rw [hjobs, List.getElem?_set_ne (Ne.symm hi)]
  length := by
    show (r.jobs.set j job).length = _
    rw [hjobs, List.length_set]
  zero := hzero

/-- The window of one client grows. -/
theorem Rpcs.Grows.update {s : Rpcs} {w : List ReplyT} {clt : UInt32}
    (h : WindowGrows (s.replyWindow clt) w) :
    s.Grows { s with replyWindow := Function.update s.replyWindow clt w } := by
  refine ⟨.refl _, .refl _, fun i => ?_, fun _ => id⟩
  by_cases hi : i = clt
  · subst hi
    simpa using h
  · simpa [hi] using .rfl

theorem ServerOk.saveConn_moves {s : Rpcs} {σ : List ServerEvent} (h : ServerOk s σ)
    (hj : s.jobs[j]? = some job) (hpc : job.pc = .save) (older : Bool) :
    s.Moves (s.saveConn j job older) j := by
  have hclt := (h.jobs job (List.mem_of_getElem? hj)).nonzero (.inl hpc)
  unfold Rpcs.saveConn
  simp only
  split
  · refine .setJob (s := s) _ _ rfl ⟨rfl, rfl, fun _ => .rfl, fun clt hne => ?_⟩ fun hzero => ?_
    · by_cases hi : clt = job.req.hdr.cltNonce
      · subst hi
        simp
      · simpa [hi] using hne
    · simpa [Ne.symm hclt] using hzero
  · exact .setJob _ _ rfl .rfl id

/-- The job that an action moves. -/
def ServerAction.job? : ServerAction → Option Nat
  | .gotPdu _ _ => none
  | .header j | .saveConn j _ | .check j | .call j | .ret j _ _ | .addReply j | .choose j _ | .send j =>
      some j

theorem ServerOk.moves {s s' : Rpcs} {σ es : List ServerEvent} {a : ServerAction}
    (hok : ServerOk s σ) (h : s.Step a (some s') es) (ha : a.job? = some j) : s.Moves s' j := by
  obtain ⟨slot, hslot⟩ := hok.slots
  generalize ho : some s' = o at h
  cases h with
  | gotPdu => cases ha
  | header =>
      cases ha
      obtain ⟨rfl, -⟩ | ⟨-, -, rfl, -⟩ := Rpcs.header_eq_some ho.symm
      · exact .setJob _ _ rfl .rfl id
      · exact .setJob _ _ rfl .rfl id
  | saveConn hj hpc =>
      cases ha
      cases ho
      exact hok.saveConn_moves hj hpc _
  | check =>
      cases ha
      obtain ⟨-, _, rfl, rfl⟩ := Rpcs.check_eq_some ho.symm
      exact .setJob _ _ rfl (.update ((hslot.window _).check_grows _ _)) id
  | call | send =>
      cases ha
      cases ho
      exact .setJob _ _ rfl .rfl id
  | @ret _ _ _ _ o _ _ hr =>
      cases ha
      obtain ⟨o, es⟩ := o
      subst ho
      obtain ⟨-, -, rfl, -⟩ := Rpcs.ret_eq_some hr
      exact .setJob _ _ rfl .rfl id
  | addReply =>
      cases ha
      obtain ⟨-, rfl⟩ | ⟨-, -, rfl⟩ := Rpcs.addReply_eq_some ho.symm
      · exact .setJob _ _ rfl .rfl id
      · exact .setJob _ _ rfl (.update ((hslot.window _).addReply_grows _ _)) id
  | choose =>
      cases ha
      obtain ⟨c, -, -, -, rfl⟩ | ⟨-, rfl⟩ := Rpcs.choose_eq_some ho.symm
      · exact .setJob _ _ rfl .rfl id
      · exact .setJob _ _ rfl .rfl id

/-! ## Steps of the server -/

/-- What holds of the states of a server. -/
structure Server.Inv (s : Server) : Prop where
  ok : ∃ σ, ServerOk s.rpcs σ
  pdus : s.pdus.length = s.rpcs.jobs.length
  zero : s.rpcs.conns 0 = none

theorem Server.Inv.windowOk (h : s.Inv) (clt : UInt32) : WindowOk (s.rpcs.replyWindow clt) := by
  obtain ⟨σ, hσ⟩ := h.ok
  obtain ⟨slot, hslot⟩ := hσ.slots
  exact hslot.window clt

/-- What a section of `dispatch` for job `j` does to a server. -/
structure Server.Moves (s s' : Server) (j : Nat) (es : List (Nat × ServerEvent)) : Prop where
  inv : s'.Inv
  rpcs : s.rpcs.Moves s'.rpcs j
  pdus : s'.pdus = s.pdus
  events : ∀ e ∈ es, e.1 = j

/-- A step of the instance is a step of the server. -/
theorem Server.Inv.lift (h : s.Inv) {a : ServerAction} (ha : a.job? = some j)
    {es : List (Nat × ServerEvent)} (hn : s.lift j (s.rpcs.step a) = some (some s', es)) :
    s.Moves s' j es := by
  obtain ⟨o, es', hst, ho, rfl⟩ := Server.lift_inv hn
  obtain ⟨rpcs, rfl, rfl⟩ := Option.map_eq_some_iff.mp ho.symm
  obtain ⟨σ, hσ⟩ := h.ok
  have hmoves := hσ.moves hst ha
  exact ⟨⟨⟨_, hσ.step hst⟩, h.pdus.trans hmoves.length.symm, hmoves.zero h.zero⟩, hmoves, rfl, by simp⟩

theorem Server.Inv.moves (h : s.Inv) {a : JobAction} {es : List (Nat × ServerEvent)}
    (hn : s.job H j a = some (some s', es)) : s.Moves s' j es := by
  cases a with
  | header =>
      simp only [Server.job, Option.bind_eq_bind, Option.bind_eq_some_iff] at hn
      obtain ⟨job, hjob, p, hp, hn⟩ := hn
      split at hn
      · rename_i hshort
        cases hn
        have hmoves : s.rpcs.Moves (s.rpcs.setJob j { job with pc := .finished }) j :=
          .setJob _ _ rfl .rfl id
        obtain ⟨σ, hσ⟩ := h.ok
        have hσ' := hσ.setJob hjob (by simp [Job.stage, hshort.1])
          (hσ.jobs job (List.mem_of_getElem? hjob)).finished
        exact ⟨⟨⟨σ, hσ'⟩, h.pdus.trans hmoves.length.symm, hmoves.zero h.zero⟩, hmoves, rfl, by simp⟩
      · exact h.lift rfl hn
  | ret k =>
      simp only [Server.job, Option.bind_eq_bind, Option.bind_eq_some_iff] at hn
      obtain ⟨job, hjob, p, hp, hn⟩ := hn
      split at hn
      · split at hn
        · exact h.lift rfl hn
        · cases hn
      · cases hn
  | saveConn older | check | call | addReply | choose dead | send => exact h.lift rfl hn

theorem Server.Inv.gotPdu (h : s.Inv) (c : Conn) (p : Bytes) : (s.gotPdu c p).Inv where
  ok := by
    obtain ⟨σ, hσ⟩ := h.ok
    exact ⟨_, hσ.step (Rpcs.Step.gotPdu (c := c))⟩
  pdus := by simp [Server.gotPdu, h.pdus]
  zero := h.zero

theorem server_inv {nonce : UInt32} {procs : List UInt32}
    (h : (serverSystem H (.new nonce procs)).Reachable (some s)) : s.Inv := by
  have hall := h.invariant (I := fun o => ∀ s, o = some s → s.Inv) ?_ ?_
  · exact hall s rfl
  · rintro o rfl s ⟨⟩
    exact ⟨⟨[], serverOk_new nonce procs⟩, rfl, rfl⟩
  · intro o a o' es hi hn s' hs'
    subst hs'
    obtain ⟨s, rfl, hn⟩ := Option.bind_eq_some_iff.mp hn
    cases a with
    | gotPdu c p =>
        change (if p.length ≤ maxPdu then some _ else none) = _ at hn
        split at hn
        · cases hn
          exact (hi s rfl).gotPdu c p
        · cases hn
    | job j a => exact ((hi s rfl).moves hn).inv

/-! ## Handlers -/

theorem Server.handler_congr (h : t.rpcs.nonce = s.rpcs.nonce) (proc : UInt32) :
    t.handler H proc = s.handler H proc := by
  unfold Server.handler
  rw [h]

/-- A handler calls its method with the arguments that the PDU encodes, if it encodes any. -/
theorem fn_handler (h : Handler) (hp : p.length ≤ maxPdu) (meth : List Item → Int32) :
    (∃ vs, Encodes h.args (p.drop rpcHeaderSz) vs ∧
      fn h.args meth (Wire.args p) = some { ret := meth vs, called := some vs }) ∨
    (¬ ∃ vs, Encodes h.args (p.drop rpcHeaderSz) vs) ∧
      (fn h.args meth (Wire.args p) = none ∨
        fn h.args meth (Wire.args p) = some { ret := unmarshalArgsFailure, called := none }) := by
  have hlt : p.length < 2 ^ 32 := hp.trans_lt (by decide)
  simp only [encodes_iff hlt h.isArg]
  rw [fn_spec hlt h.ne]
  match hparse : itemsM (parse p.length) h.args (p.drop rpcHeaderSz) with
  | .ok (vs, []) => exact .inl ⟨vs, rfl, rfl⟩
  | .ok (vs, b :: rest) => exact .inr ⟨by simp, .inr rfl⟩
  | .error .short => exact .inr ⟨by simp, .inr rfl⟩
  | .error .wild => exact .inr ⟨by simp, .inl rfl⟩

/-- `encodes_iff` reads the arguments in one way only. -/
theorem Typed.unique (hp : p.length ≤ maxPdu) {vs vs' : List Item} (h : s.Typed H p vs)
    (h' : s.Typed H p vs') : vs = vs' := by
  have hlt : p.length < 2 ^ 32 := hp.trans_lt (by decide)
  unfold Typed at h h'
  rw [encodes_iff hlt (s.handler H (hdr p).proc).isArg] at h h'
  rw [h] at h'
  cases h'
  rfl

/-! ## A job and its PDU -/

/-- Job `j` of `t` has the PDU `p`, and `t` has come from `s`. -/
structure Server.Carries (s : Server) (p : Bytes) (j : Nat) (t : Server) (job : Job) : Prop where
  inv : t.Inv
  nonce : t.rpcs.nonce = s.rpcs.nonce
  procs : t.rpcs.procs = s.rpcs.procs
  get : t.rpcs.jobs[j]? = some job
  pdu : t.pdus[j]? = some p
  req : job.req = (unpackReq p).1

namespace Server.Carries

variable {a : JobAction} {es : List (Nat × ServerEvent)} {job' : Job} {b : Reply}

theorem hdr_eq (h : s.Carries p j t job) : job.req.hdr = hdr p := by
  rw [h.req]
  rfl

/-- The job takes a step. -/
theorem advance (h : s.Carries p j t job) (hn : t.job H j a = some (some t', es))
    (hget : t'.rpcs.jobs[j]? = some job') (hreq : job'.req = job.req) : s.Carries p j t' job' := by
  have hm := h.inv.moves hn
  exact ⟨hm.inv, hm.rpcs.grows.nonce.trans h.nonce, hm.rpcs.grows.procs.trans h.procs, hget,
    by rw [hm.pdus]; exact h.pdu, hreq.trans h.req⟩

theorem job_header (h : s.Carries p j t job) (hpc : job.pc = .arrived) : t.job H j .header =
    if (unpackReq p).2 = false then
      some (some { t with rpcs := t.rpcs.setJob j { job with pc := .finished } }, [])
    else t.lift j (some (t.rpcs.header j job)) := by
  simp only [Server.job, h.get, h.pdu, Option.bind_eq_bind, Option.bind_some, hpc, true_and, Rpcs.step]
  rfl

/-- The header of a request for this instance: `dispatch` goes on if the procedure is registered, and
aborts if it is not. -/
theorem job_header_new (h : s.Carries p j t job) (hpc : job.pc = .arrived)
    (hok : (unpackReq p).2 = true) (hnew : ¬ OldServer s.rpcs p) :
    (Registered s.rpcs (hdr p).proc ∧ t.job H j .header = some (some { t with
      rpcs := t.rpcs.setJob j { job with pc := if (hdr p).cltNonce ≠ 0 then .save else .new } }, [])) ∨
    ¬ Registered s.rpcs (hdr p).proc ∧ t.job H j .header = some (none, []) := by
  rw [h.job_header hpc, if_neg (by simp [hok])]
  unfold Rpcs.header OldServer Registered at *
  rw [h.hdr_eq, ← h.procs]
  rw [← h.nonce] at hnew
  simp only [if_neg hnew]
  split
  · rename_i hno
    exact .inr ⟨by tauto, rfl⟩
  · rename_i hreg
    exact .inl ⟨by tauto, rfl⟩

theorem job_saveConn (h : s.Carries p j t job) (hpc : job.pc = .save) (older : Bool) :
    t.job H j (.saveConn older) = some (some { t with rpcs := t.rpcs.saveConn j job older }, []) := by
  simp [Server.job, Server.lift, Rpcs.step, h.get, hpc]

theorem job_check (h : s.Carries p j t job) (hpc : job.pc = .check) :
    t.job H j .check = t.lift j (some (t.rpcs.check j job, [])) := by
  simp [Server.job, Rpcs.step, h.get, hpc]

theorem job_call (h : s.Carries p j t job) (hpc : job.pc = .new) : t.job H j .call =
    some (some { t with rpcs := t.rpcs.setJob j { job with pc := .running } },
      [(j, .executed job.req)]) := by
  simp [Server.job, Server.lift, Rpcs.step, h.get, hpc]

theorem job_addReply (h : s.Carries p j t job) (hpc : job.pc = .reply b) :
    t.job H j .addReply = t.lift j (some (t.rpcs.addReply j job b, [])) := by
  simp [Server.job, Rpcs.step, h.get, hpc]

theorem job_choose (h : s.Carries p j t job) (hpc : job.pc = .choose b) (dead : Bool) :
    t.job H j (.choose dead) = t.lift j (some (t.rpcs.choose j job b dead, [])) := by
  simp [Server.job, Rpcs.step, h.get, hpc]

theorem job_send (h : s.Carries p j t job) (hpc : job.pc = .send b) : t.job H j .send =
    some (some { t with rpcs := t.rpcs.setJob j { job with pc := .finished } },
      [(j, .sent job.conn b)]) := by
  simp [Server.job, Server.lift, Rpcs.step, h.get, hpc]

/-- The handler returns and the reply is packed; or the process aborts, because the PDU does not encode
arguments or because the status is negative. -/
theorem job_ret (h : s.Carries p j t job) (hpc : job.pc = .running) (hlen : p.length ≤ maxPdu)
    (k : Nat) :
    ((∃ vs, s.Typed H p vs ∧ 0 ≤ ((s.handler H (hdr p).proc).meth vs k).1) ∧
      ∃ b e, t.job H j (.ret k) =
        some (some { t with rpcs := t.rpcs.setJob j { job with pc := .reply b } }, [(j, e)]) ∧
        jobReplies j [(j, e)] = []) ∨
    (¬ ∃ vs, s.Typed H p vs ∧ 0 ≤ ((s.handler H (hdr p).proc).meth vs k).1) ∧
      t.job H j (.ret k) = some (none, []) := by
  have hH : t.handler H job.req.hdr.proc = s.handler H (hdr p).proc := by
    rw [h.hdr_eq]
    exact Server.handler_congr h.nonce _
  have hstep : ∀ r body, t.rpcs.step (.ret j r body) = t.rpcs.ret j job r body := by
    intro r body
    simp [Rpcs.step, h.get, hpc]
  have hret : ∀ r, fn (s.handler H (hdr p).proc).args
      (fun vs => ((s.handler H (hdr p).proc).meth vs k).1) (Wire.args p) = some r →
      t.job H j (.ret k) = t.lift j (t.rpcs.ret j job r.ret
        (r.called.elim [] fun vs => ((s.handler H (hdr p).proc).meth vs k).2)) := by
    intro r hfn
    simp only [Server.job, h.get, h.pdu, Option.bind_eq_bind, Option.bind_some, hpc, hH, hstep, hfn]
  rcases fn_handler (s.handler H (hdr p).proc) hlen
    (fun vs => ((s.handler H (hdr p).proc).meth vs k).1) with ⟨vs, hvs, hfn⟩ | ⟨hno, hfn | hfn⟩
  · rw [hret _ hfn]
    simp only [Option.elim_some]
    generalize hr : (s.handler H (hdr p).proc).meth vs k = r
    have hbind : ¬ (job.req.hdr.proc = bindProc ∧ ¬ r.1 < 0 ∧
        (r.1 ≠ 0 ∨ r.2 ≠ intBody t.rpcs.nonce)) := by
      rintro ⟨hproc, -, hne⟩
      rw [h.hdr_eq] at hproc
      rw [Server.handler, if_pos hproc, ← h.nonce] at hr
      subst hr
      simp [rpcbind] at hne
    by_cases hneg : r.1 < 0
    · refine .inr ⟨?_, ?_⟩
      · rintro ⟨vs', hvs', hpos⟩
        obtain rfl := Typed.unique hlen hvs hvs'
        rw [hr] at hpos
        exact absurd hneg (Int32.not_lt.mpr hpos)
      · rw [Rpcs.ret, if_neg hbind, if_pos hneg]
        rfl
    · refine .inl ⟨⟨vs, hvs, by rw [hr]; exact Int32.not_lt.mp hneg⟩, ⟨⟨job.req.hdr.xid, r.1⟩, r.2⟩,
        .produced job.req r.1 r.2, ?_, rfl⟩
      rw [Rpcs.ret, if_neg hbind, if_neg hneg]
      rfl
  · -- a byte outside of the message is read
    refine .inr ⟨?_, ?_⟩
    · rintro ⟨vs, hvs, -⟩
      exact hno ⟨vs, hvs⟩
    · simp only [Server.job, h.get, h.pdu, Option.bind_eq_bind, Option.bind_some, hpc, hH, hfn]
      rfl
  · rw [hret _ hfn]
    refine .inr ⟨?_, ?_⟩
    · rintro ⟨vs, hvs, -⟩
      exact hno ⟨vs, hvs⟩
    -- `unmarshal_args_failure` is negative
    have hneg : unmarshalArgsFailure < 0 := by decide
    simp [Server.lift, Rpcs.ret, hneg]

end Server.Carries

/-- A PDU that arrives becomes a job. -/
theorem Server.Inv.carries (hs : s.Inv) (c : Conn) (p : Bytes) :
    s.Carries p s.rpcs.jobs.length (s.gotPdu c p) ⟨c, (unpackReq p).1, .arrived⟩ where
  inv := hs.gotPdu c p
  nonce := rfl
  procs := rfl
  get := by simp [Server.gotPdu]
  pdu := by simp [Server.gotPdu, ← hs.pdus]
  req := rfl

/-! ## A harmless PDU on its way -/

/-- What holds of the instance `t` until the request in `p` is checked. -/
structure Harmless.Awaits (H : UInt32 → Handler) (s : Server) (p : Bytes) (t : Rpcs) : Prop where
  registered : Registered t (hdr p).proc
  nonzero : (hdr p).cltNonce ≠ 0
  xid : (hdr p).xidRep < (hdr p).xid
  known : s.Executable H p ∨ Seen t p ∨ Beyond (t.replyWindow (hdr p).cltNonce) (hdr p).xid
  bad : s.BadCall H p → ¬ Seen s.rpcs p → Beyond (t.replyWindow (hdr p).cltNonce) (hdr p).xid

/-- What holds of the instance `t` while the request in `p` is executed. -/
structure Harmless.Executes (H : UInt32 → Handler) (s : Server) (p : Bytes) (t : Rpcs) : Prop where
  executable : s.Executable H p
  good : ¬ s.BadCall H p
  nonzero : (hdr p).cltNonce ≠ 0
  window : t.replyWindow (hdr p).cltNonce ≠ []
  conns : t.conns (hdr p).cltNonce ≠ none

/-- What holds of the instance `t` when a job with the PDU `p` is at a place and has sent `rs`. -/
def Harmless.At (H : UInt32 → Handler) (s : Server) (p : Bytes) (t : Rpcs) (rs : List Reply) :
    JobPc → Prop
  | .arrived => rs = [] ∧ ((unpackReq p).2 = true → ¬ OldServer t p → Harmless.Awaits H s p t)
  | .save => rs = [] ∧ Harmless.Awaits H s p t
  | .check => rs = [] ∧ Harmless.Awaits H s p t ∧ t.conns (hdr p).cltNonce ≠ none
  | .new | .running | .reply _ | .choose _ => rs = [] ∧ Harmless.Executes H s p t
  | .send b => rs = [] ∧ (s.BadCall H p → ¬ Seen s.rpcs p → b.hdr.ret < 0)
  | .finished => rs.length ≤ 1 ∧ (s.BadCall H p → ¬ Seen s.rpcs p → ∀ b ∈ rs, b.hdr.ret < 0) ∧
      ((unpackReq p).2 = true → s.BadCall H p → ¬ Seen s.rpcs p → rs ≠ [])

/-- Job `j` is on its way with the PDU `p`. -/
structure Harmless.OnWay (H : UInt32 → Handler) (s : Server) (p : Bytes) (j : Nat)
    (τ : List (Nat × ServerEvent)) (t : Server) (job : Job) : Prop extends s.Carries p j t job where
  place : Harmless.At H s p t.rpcs (jobReplies j τ) job.pc

/-- How far a job has to go. -/
def JobPc.rest : JobPc → Nat
  | .arrived => 8
  | .save => 7
  | .check => 6
  | .new => 5
  | .running => 4
  | .reply _ => 3
  | .choose _ => 2
  | .send _ => 1
  | .finished => 0

namespace Harmless

section
variable {u u' : Rpcs} {rs : List Reply} {pc : JobPc} {τ es : List (Nat × ServerEvent)}

theorem Awaits.grows (h : Awaits H s p u) (hg : u.Grows u') : Awaits H s p u' where
  registered := by
    unfold Registered
    rw [hg.procs]
    exact h.registered
  nonzero := h.nonzero
  xid := h.xid
  known := by
    rcases h.known with he | hs | hb
    · exact .inl he
    · exact .inr (.inl ((hg.window _).seen _ hs))
    · exact .inr (.inr ((hg.window _).beyond _ hb))
  bad hbad hns := (hg.window _).beyond _ (h.bad hbad hns)

theorem Executes.grows (h : Executes H s p u) (hg : u.Grows u') : Executes H s p u' where
  executable := h.executable
  good := h.good
  nonzero := h.nonzero
  window := by
    -- the first record stays
    obtain ⟨r, hr⟩ := List.exists_mem_of_ne_nil _ h.window
    obtain ⟨r', hr', -⟩ := entry_ne_none.mp ((hg.window _).seen _ (entry_ne_none.mpr ⟨r, hr, rfl⟩))
    exact List.ne_nil_of_mem hr'
  conns := hg.conns _ h.conns

/-- Other jobs do no harm to this one. -/
theorem At.grows (h : At H s p u rs pc) (hg : u.Grows u') : At H s p u' rs pc := by
  cases pc with
  | arrived =>
      refine ⟨h.1, fun hok hnew => (h.2 hok ?_).grows hg⟩
      unfold OldServer at hnew ⊢
      rwa [hg.nonce] at hnew
  | save => exact ⟨h.1, h.2.grows hg⟩
  | check => exact ⟨h.1, h.2.1.grows hg, hg.conns _ h.2.2⟩
  | new | running | reply b | choose b => exact ⟨h.1, h.2.grows hg⟩
  | send b | finished => exact h

/-- Another job takes a step. -/
theorem OnWay.others (h : OnWay H s p j τ t job) {i : Nat} (hi : i ≠ j) (hm : t.Moves t' i es) :
    OnWay H s p j (τ ++ es) t' job where
  inv := hm.inv
  nonce := hm.rpcs.grows.nonce.trans h.nonce
  procs := hm.rpcs.grows.procs.trans h.procs
  get := by
    rw [hm.rpcs.others j (Ne.symm hi)]
    exact h.get
  pdu := by
    rw [hm.pdus]
    exact h.pdu
  req := h.req
  place := by
    have hnone : jobReplies j es = [] := by
      refine List.filterMap_eq_nil_iff.mpr fun e he => ?_
      have := hm.events e he
      obtain ⟨k, ev⟩ := e
      cases ev <;> simp_all
    unfold jobReplies at hnone ⊢
    rw [List.filterMap_append, hnone, List.append_nil]
    exact h.place.grows hm.rpcs.grows

/-- A new PDU arrives. -/
theorem OnWay.gotPdu (h : OnWay H s p j τ t job) (c : Conn) (q : Bytes) {req : Request} {k : Nat} :
    OnWay H s p j (τ ++ [(k, .received c req)]) (t.gotPdu c q) job where
  inv := h.inv.gotPdu c q
  nonce := h.nonce
  procs := h.procs
  get := by
    show (t.rpcs.jobs ++ _)[j]? = _
    rw [List.getElem?_append_left (List.getElem?_eq_some_iff.mp h.get).1]
    exact h.get
  pdu := by
    show (t.pdus ++ _)[j]? = _
    rw [List.getElem?_append_left (List.getElem?_eq_some_iff.mp h.pdu).1]
    exact h.pdu
  req := h.req
  place := by
    have : jobReplies j (τ ++ [(k, .received c req)]) = jobReplies j τ := by
      simp [jobReplies, List.filterMap_append]
    rw [this]
    exact h.place.grows ⟨rfl, rfl, fun _ => .rfl, fun _ => id⟩

theorem replies_append (j : Nat) (τ es : List (Nat × ServerEvent)) :
    jobReplies j (τ ++ es) = jobReplies j τ ++ jobReplies j es := List.filterMap_append

/-- What the job does in one section: it does not abort, and has less to do afterwards. -/
def Advances (H : UInt32 → Handler) (s : Server) (p : Bytes) (j : Nat) (τ : List (Nat × ServerEvent))
    (t : Server) (job : Job) (a : JobAction) : Prop :=
  ∃ t' es job', t.job H j a = some (some t', es) ∧ OnWay H s p j (τ ++ es) t' job' ∧
    job'.pc.rest < job.pc.rest

/-- A section that sends nothing, sets the place of the job, and perhaps its connection. -/
theorem OnWay.advances (h : OnWay H s p j τ t job) {a : JobAction} {job' : Job}
    (hn : t.job H j a = some (some { t with rpcs := u.setJob j job' }, es))
    (hjobs : u.jobs = t.rpcs.jobs) (hreq : job'.req = job.req) (hes : jobReplies j es = [])
    (hplace : At H s p u (jobReplies j τ) job'.pc) (hrest : job'.pc.rest < job.pc.rest) :
    Advances H s p j τ t job a := by
  refine ⟨_, _, job', hn, ⟨h.advance hn (Rpcs.get_setJob h.get hjobs) hreq, ?_⟩, hrest⟩
  rw [replies_append, hes, List.append_nil]
  exact hplace.grows ⟨rfl, rfl, fun _ => .rfl, fun _ => id⟩

/-- A section that sends `b` and finishes the job. -/
theorem OnWay.sends (h : OnWay H s p j τ t job) {a : JobAction} {b : Reply}
    (hn : t.job H j a = some (some { t with rpcs := t.rpcs.setJob j { job with pc := .finished } },
      [(j, .sent job.conn b)]))
    (hrs : jobReplies j τ = []) (hneg : s.BadCall H p → ¬ Seen s.rpcs p → b.hdr.ret < 0)
    (hpc : job.pc ≠ .finished) : Advances H s p j τ t job a := by
  have hrs' : jobReplies j (τ ++ [(j, .sent job.conn b)]) = [b] := by
    rw [replies_append, hrs]
    simp [jobReplies]
  refine ⟨_, _, { job with pc := .finished }, hn,
    ⟨h.advance hn (Rpcs.get_setJob h.get rfl) rfl, ?_⟩, ?_⟩
  · rw [hrs']
    exact ⟨le_rfl, fun hbad hns => by simpa using hneg hbad hns, by simp⟩
  · cases hp : job.pc <;> simp_all [JobPc.rest]

theorem OnWay.header (h : OnWay H s p j τ t job) (hpc : job.pc = .arrived) :
    Advances H s p j τ t job .header := by
  obtain ⟨hrs, hplace⟩ : At H s p t.rpcs (jobReplies j τ) .arrived := hpc ▸ h.place
  have hstep := h.job_header (H := H) hpc
  by_cases hok : (unpackReq p).2 = false
  · -- too short for a header: dropped
    rw [if_pos hok] at hstep
    exact h.advances hstep rfl rfl rfl ⟨by simp [hrs], by simp [hrs], by simp [hok]⟩
      (by simp [JobPc.rest, hpc])
  · rw [if_neg hok] at hstep
    by_cases hold : OldServer s.rpcs p
    · -- for an old instance: answered with `oldsrv_failure`
      unfold Rpcs.header OldServer at *
      rw [h.hdr_eq] at hstep
      rw [← h.nonce] at hold
      simp only [if_pos hold] at hstep
      refine h.sends hstep hrs (fun _ _ => ?_) (by simp [hpc])
      show oldsrvFailure < 0
      decide
    · have hok : (unpackReq p).2 = true := by simpa using hok
      have hawaits := hplace hok (by unfold OldServer at *; rwa [h.nonce])
      rcases h.job_header_new (H := H) hpc hok hold with ⟨-, hstep⟩ | ⟨hno, -⟩
      · rw [if_pos hawaits.nonzero] at hstep
        exact h.advances hstep rfl rfl rfl ⟨hrs, hawaits⟩ (by simp [JobPc.rest, hpc])
      · have hreg := hawaits.registered
        unfold Registered at hreg hno
        rw [h.procs] at hreg
        exact absurd hreg hno

theorem OnWay.saveConn (h : OnWay H s p j τ t job) (hpc : job.pc = .save) (older : Bool) :
    Advances H s p j τ t job (.saveConn older) := by
  obtain ⟨hrs, hawaits⟩ : At H s p t.rpcs (jobReplies j τ) .save := hpc ▸ h.place
  obtain ⟨σ, hσ⟩ := h.inv.ok
  have hm := hσ.saveConn_moves h.get hpc older
  refine h.advances (h.job_saveConn hpc older) rfl rfl rfl ⟨hrs, hawaits.grows ?_, ?_⟩
    (by simp [JobPc.rest, hpc])
  · exact ⟨hm.grows.nonce, hm.grows.procs, hm.grows.window, hm.grows.conns⟩
  · show (if _ then _ else _ : UInt32 → Option Conn) (hdr p).cltNonce ≠ none
    rw [h.hdr_eq]
    split
    · simp
    · rename_i hno
      exact fun hnone => hno (.inl hnone)

theorem OnWay.check (h : OnWay H s p j τ t job) (hpc : job.pc = .check) :
    Advances H s p j τ t job .check := by
  obtain ⟨hrs, hawaits, hconns⟩ : At H s p t.rpcs (jobReplies j τ) .check := hpc ▸ h.place
  have hw := h.inv.windowOk (hdr p).cltNonce
  have hstep := h.job_check (H := H) hpc
  unfold Rpcs.check at hstep
  rw [h.hdr_eq] at hstep
  dsimp only at hstep
  rw [if_pos (show (hdr p).xid > (hdr p).xidRep from hawaits.xid)] at hstep
  generalize hc : checkduplicateAndUpdate (t.rpcs.replyWindow (hdr p).cltNonce) (hdr p).xid
    (hdr p).xidRep = r at hstep
  obtain ⟨w, st⟩ := r
  have hrest : (Rpcs.afterCheck job.req st).rest < job.pc.rest := by
    rw [hpc]
    cases st with
    | done b => cases b <;> simp [Rpcs.afterCheck, JobPc.rest]
    | new | inprogress | forgotten => simp [Rpcs.afterCheck, JobPc.rest]
  -- a bad call without a record of its own is forgotten
  have hforgotten : s.BadCall H p → ¬ Seen s.rpcs p → st = .forgotten := by
    intro hbad hns
    have hbeyond := hawaits.bad hbad hns
    have he : entry (t.rpcs.replyWindow (hdr p).cltNonce) (hdr p).xid = none := by
      refine entry_eq_none.mpr fun r hr heq => ?_
      have hlt := hbeyond.2 r hr
      rw [heq] at hlt
      exact absurd hlt (UInt32.lt_irrefl _)
    rw [hw.check_none he, if_pos (hw.front_gt.mpr hbeyond)] at hc
    cases hc
    rfl
  refine h.advances hstep rfl rfl rfl ?_ hrest
  cases st with
  | inprogress =>
      refine ⟨by simp [hrs], by simp [hrs], fun _ hbad hns => ?_⟩
      cases hforgotten hbad hns
  | forgotten =>
      refine ⟨hrs, fun _ _ => ?_⟩
      show atmostonceFailure < 0
      decide
  | done b =>
      cases b with
      | none =>
          refine ⟨by simp [hrs], by simp [hrs], fun _ hbad hns => ?_⟩
          cases hforgotten hbad hns
      | some b =>
          refine ⟨hrs, fun hbad hns => ?_⟩
          cases hforgotten hbad hns
  | new =>
      have hnew : ¬ (Seen t.rpcs p ∨ Beyond (t.rpcs.replyWindow (hdr p).cltNonce) (hdr p).xid) := by
        rw [Seen, ← hw.check_new_iff (hdr p).xid (hdr p).xidRep, hc]
        simp
      have hexec : s.Executable H p := hawaits.known.resolve_right hnew
      refine ⟨hrs, hexec, ?_, hawaits.nonzero, ?_, hconns⟩
      · obtain ⟨vs, hvs, -⟩ := hexec
        have hreg := hawaits.registered
        unfold Registered at hreg
        rw [h.procs] at hreg
        rintro (hno | hno)
        · exact hno hreg
        · exact hno ⟨vs, hvs⟩
      · -- its own record is there now
        have he : entry (t.rpcs.replyWindow (hdr p).cltNonce) (hdr p).xid = none := by
          by_contra hne
          exact hnew (.inl hne)
        rw [hw.check_none he] at hc
        split at hc
        · cases hc
        · cases hc
          show Function.update t.rpcs.replyWindow (hdr p).cltNonce _ (hdr p).cltNonce ≠ []
          rw [Function.update_self]
          exact List.ne_nil_of_mem (mem_insertNew.mpr (.inl rfl))

theorem OnWay.call (h : OnWay H s p j τ t job) (hpc : job.pc = .new) :
    Advances H s p j τ t job .call := by
  obtain ⟨hrs, hexec⟩ : At H s p t.rpcs (jobReplies j τ) .new := hpc ▸ h.place
  exact h.advances (h.job_call hpc) rfl rfl rfl ⟨hrs, hexec⟩ (by simp [JobPc.rest, hpc])

theorem OnWay.ret (h : OnWay H s p j τ t job) (hpc : job.pc = .running) (hlen : p.length ≤ maxPdu)
    (k : Nat) : Advances H s p j τ t job (.ret k) := by
  obtain ⟨hrs, hexec⟩ : At H s p t.rpcs (jobReplies j τ) .running := hpc ▸ h.place
  obtain ⟨vs, hvs, hpos⟩ := hexec.executable
  rcases h.job_ret (H := H) hpc hlen k with ⟨-, b, e, hstep, hes⟩ | ⟨hno, -⟩
  · exact h.advances hstep rfl rfl hes ⟨hrs, hexec⟩ (by simp [JobPc.rest, hpc])
  · exact absurd ⟨vs, hvs, hpos k⟩ hno

theorem OnWay.addReply (h : OnWay H s p j τ t job) {b : Reply} (hpc : job.pc = .reply b) :
    Advances H s p j τ t job .addReply := by
  obtain ⟨hrs, hexec⟩ : At H s p t.rpcs (jobReplies j τ) (.reply b) := hpc ▸ h.place
  have hstep := h.job_addReply (H := H) hpc
  unfold Rpcs.addReply at hstep
  rw [h.hdr_eq] at hstep
  dsimp only at hstep
  rw [if_neg hexec.nonzero, if_neg hexec.window] at hstep
  refine h.advances hstep rfl rfl rfl ⟨hrs, hexec.grows ?_⟩ (by simp [JobPc.rest, hpc])
  exact .update ((h.inv.windowOk _).addReply_grows _ _)

theorem OnWay.choose (h : OnWay H s p j τ t job) {b : Reply} (hpc : job.pc = .choose b) (dead : Bool) :
    Advances H s p j τ t job (.choose dead) := by
  obtain ⟨hrs, hexec⟩ : At H s p t.rpcs (jobReplies j τ) (.choose b) := hpc ▸ h.place
  have hplace : At H s p t.rpcs (jobReplies j τ) (.send b) := ⟨hrs, fun hbad => absurd hbad hexec.good⟩
  have hstep := h.job_choose (H := H) hpc dead
  unfold Rpcs.choose at hstep
  rw [h.hdr_eq] at hstep
  dsimp only at hstep
  split at hstep
  · -- the connection is dead; there is a saved one
    obtain ⟨c, hc⟩ := Option.ne_none_iff_exists'.mp hexec.conns
    rw [hc, Option.map_some] at hstep
    exact h.advances hstep rfl rfl rfl hplace (by simp [JobPc.rest, hpc])
  · exact h.advances hstep rfl rfl rfl hplace (by simp [JobPc.rest, hpc])

theorem OnWay.send (h : OnWay H s p j τ t job) {b : Reply} (hpc : job.pc = .send b) :
    Advances H s p j τ t job .send := by
  obtain ⟨hrs, hneg⟩ : At H s p t.rpcs (jobReplies j τ) (.send b) := hpc ▸ h.place
  exact h.sends (h.job_send hpc) hrs hneg (by simp [hpc])

/-- Whatever section the job goes through, it goes on. -/
theorem OnWay.advances_of_enabled (h : OnWay H s p j τ t job) (hlen : p.length ≤ maxPdu)
    {a : JobAction} {o : Option Server} (hn : t.job H j a = some (o, es)) :
    Advances H s p j τ t job a := by
  have hsame : ∀ {job' : Job}, t.rpcs.jobs[j]? = some job' → job' = job := by
    intro job' hj
    exact Option.some.inj (hj.symm.trans h.get)
  cases a with
  | header =>
      refine h.header ?_
      simp only [Server.job, h.get, h.pdu, Option.bind_eq_bind, Option.bind_some] at hn
      split at hn
      · rename_i hshort
        exact hshort.1
      · obtain ⟨o', es', hst, -⟩ := Server.lift_inv hn
        cases hst with
        | header hj hpc => exact hsame hj ▸ hpc
  | saveConn older =>
      obtain ⟨o', es', hst, -⟩ := Server.lift_inv hn
      cases hst with
      | saveConn hj hpc => exact h.saveConn (hsame hj ▸ hpc) older
  | check =>
      obtain ⟨o', es', hst, -⟩ := Server.lift_inv hn
      cases hst with
      | check hj hpc => exact h.check (hsame hj ▸ hpc)
  | call =>
      obtain ⟨o', es', hst, -⟩ := Server.lift_inv hn
      cases hst with
      | call hj hpc => exact h.call (hsame hj ▸ hpc)
  | ret k =>
      refine h.ret ?_ hlen k
      simp only [Server.job, h.get, h.pdu, Option.bind_eq_bind, Option.bind_some] at hn
      split at hn
      · assumption
      · cases hn
  | addReply =>
      obtain ⟨o', es', hst, -⟩ := Server.lift_inv hn
      cases hst with
      | addReply hj hpc => exact h.addReply (hsame hj ▸ hpc)
  | choose dead =>
      obtain ⟨o', es', hst, -⟩ := Server.lift_inv hn
      cases hst with
      | choose hj hpc => exact h.choose (hsame hj ▸ hpc) dead
  | send =>
      obtain ⟨o', es', hst, -⟩ := Server.lift_inv hn
      cases hst with
      | send hj hpc => exact h.send (hsame hj ▸ hpc)

/-- A job that has not finished can go on. -/
theorem OnWay.progress (h : OnWay H s p j τ t job) (hlen : p.length ≤ maxPdu)
    (hpc : job.pc ≠ .finished) : ∃ a, Advances H s p j τ t job a := by
  cases hp : job.pc with
  | arrived => exact ⟨_, h.header hp⟩
  | save => exact ⟨_, h.saveConn hp false⟩
  | check => exact ⟨_, h.check hp⟩
  | new => exact ⟨_, h.call hp⟩
  | running => exact ⟨_, h.ret hp hlen 0⟩
  | reply b => exact ⟨_, h.addReply hp⟩
  | choose b => exact ⟨_, h.choose hp false⟩
  | send b => exact ⟨_, h.send hp⟩
  | finished => exact absurd hp hpc

/-- A job can go on to its end. -/
theorem OnWay.finishes (h : OnWay H s p j τ t job) (hlen : p.length ≤ maxPdu) (r : Server) :
    ∃ (as : List JobAction) (τ' : _) (t' : Server) (job' : Job),
      (serverSystem H r).exec (some t) (as.map (.job j)) = some (some t', τ') ∧
      t'.rpcs.jobs[j]? = some job' ∧ job'.pc = .finished := by
  induction hn : job.pc.rest using Nat.strongRecOn generalizing t τ job with
  | _ n ih =>
    by_cases hpc : job.pc = .finished
    · exact ⟨[], [], t, job, rfl, h.get, hpc⟩
    · obtain ⟨a, t₁, es₁, job₁, hstep, h₁, hlt⟩ := h.progress hlen hpc
      obtain ⟨as, τ', t', job', hexec, hget, hfin⟩ := ih _ (hn ▸ hlt) h₁ rfl
      refine ⟨a :: as, es₁ ++ τ', t', job', ?_, hget, hfin⟩
      have hnext : (serverSystem H r).next (some t) (.job j a) = some (some t₁, es₁) := hstep
      simp [System.exec, hnext, hexec]

/-- What holds on the way is what should hold. -/
theorem OnWay.handled (h : OnWay H s p j τ t job) (hlen : p.length ≤ maxPdu) :
    s.Handled H p j τ t where
  safe a es hn := by
    obtain ⟨t', es', job', hstep, -⟩ := h.advances_of_enabled hlen hn
    rw [hn] at hstep
    cases hstep
  returns := h.finishes hlen t
  once := by
    have hplace := h.place
    cases hpc : job.pc with
    | finished =>
        rw [hpc] at hplace
        exact hplace.1
    | arrived | save | check | new | running | reply b | choose b | send b =>
        rw [hpc] at hplace
        simp [hplace.1]
  negative := by
    have hplace := h.place
    cases hpc : job.pc with
    | finished =>
        rw [hpc] at hplace
        exact hplace.2.1
    | arrived | save | check | new | running | reply b | choose b | send b =>
        rw [hpc] at hplace
        simp [hplace.1]
  answered hok hbad hns job' hjob' hpc := by
    have hplace := h.place
    obtain rfl : job' = job := Option.some.inj (hjob'.symm.trans h.get)
    rw [hpc] at hplace
    exact hplace.2.2 hok hbad hns

/-- A harmless PDU that arrives is on its way. -/
theorem onWay_gotPdu (hs : s.Inv) (hp : s.Harmless H p) (c : Conn) :
    OnWay H s p s.rpcs.jobs.length [] (s.gotPdu c p) ⟨c, (unpackReq p).1, .arrived⟩ := by
  refine ⟨hs.carries c p, rfl, fun hok hnew => ?_⟩
  rcases hp with hshort | hold | ⟨hreg, hclt, hxid, hknown⟩
  · rw [hok] at hshort
    cases hshort
  · exact absurd hold hnew
  · rw [(hs.windowOk _).check_new_iff] at hknown
    refine ⟨hreg, hclt, hxid, hknown, fun hbad hns => ?_⟩
    rcases hknown with ⟨vs, hvs, -⟩ | hseen | hbeyond
    · exact absurd hbad (by rintro (hno | hno); exacts [hno hreg, hno ⟨vs, hvs⟩])
    · exact absurd hseen hns
    · exact hbeyond

end

end Harmless

/-- The server survives a harmless PDU. -/
theorem survives_of_harmless (hs : s.Inv) (hlen : p.length ≤ maxPdu) (hp : s.Harmless H p) (c : Conn) :
    s.Survives H c p := by
  intro τ t hrun
  have hall := hrun.invariant
    (I := fun τ o => ∀ t, o = some t → ∃ job, Harmless.OnWay H s p s.rpcs.jobs.length τ t job) ?_ ?_
  · obtain ⟨job, hjob⟩ := hall t rfl
    exact hjob.handled hlen
  · rintro o rfl t ⟨⟩
    exact ⟨_, Harmless.onWay_gotPdu hs hp c⟩
  · intro τ o a o' es hi hn t' ht'
    subst ht'
    obtain ⟨t, rfl, hn⟩ := Option.bind_eq_some_iff.mp hn
    obtain ⟨job, h⟩ := hi t rfl
    cases a with
    | gotPdu c' q =>
        change (if q.length ≤ maxPdu then some _ else none) = _ at hn
        split at hn
        · cases hn
          exact ⟨job, h.gotPdu c' q⟩
        · cases hn
    | job i a =>
        by_cases hi : i = s.rpcs.jobs.length
        · subst hi
          obtain ⟨t₁, es₁, job₁, hstep, h₁, -⟩ := h.advances_of_enabled hlen hn
          have := hstep.symm.trans hn
          cases this
          exact ⟨job₁, h₁⟩
        · exact ⟨job, h.others hi (h.inv.moves hn)⟩

/-! ## A PDU that does harm -/

/-- The server can come to `t` by sections of the new job alone. -/
structure Server.Alone (H : UInt32 → Handler) (s : Server) (c : Conn) (p : Bytes) (t : Server)
    (job : Job) : Prop extends s.Carries p s.rpcs.jobs.length t job where
  run : ∃ τ, (serverSystem H (s.gotPdu c p)).Run τ (some t)
  conn : job.conn = c

section
variable {a : JobAction} {es : List (Nat × ServerEvent)} {u : Rpcs} {job' : Job}

theorem Server.Alone.step (h : s.Alone H c p t job)
    (hn : t.job H s.rpcs.jobs.length a =
      some (some { t with rpcs := u.setJob s.rpcs.jobs.length job' }, es))
    (hjobs : u.jobs = t.rpcs.jobs) (hreq : job'.req = job.req) (hconn : job'.conn = job.conn) :
    s.Alone H c p { t with rpcs := u.setJob s.rpcs.jobs.length job' } job' := by
  obtain ⟨τ, hrun⟩ := h.run
  have hnext : (serverSystem H (s.gotPdu c p)).next (some t) (.job s.rpcs.jobs.length a) = _ := hn
  exact ⟨h.advance hn (Rpcs.get_setJob h.get hjobs) hreq, ⟨_, hrun.step hnext⟩, hconn.trans h.conn⟩

/-- A server that survives does not abort on the way. -/
theorem Server.Survives.not_abort (hsurv : s.Survives H c p) (h : s.Alone H c p t job) :
    t.job H s.rpcs.jobs.length a ≠ some (none, []) := by
  obtain ⟨τ, hrun⟩ := h.run
  exact (hsurv τ t hrun).safe a []

/-- The header is accepted. -/
theorem Server.Inv.alone_header (hs : s.Inv) (c : Conn) (hok : (unpackReq p).2 = true)
    (hnew : ¬ OldServer s.rpcs p) (hreg : Registered s.rpcs (hdr p).proc) :
    ∃ t job, s.Alone H c p t job ∧ t.rpcs.replyWindow = s.rpcs.replyWindow ∧
      job.pc = if (hdr p).cltNonce ≠ 0 then .save else .new := by
  have hstart : s.Alone H c p _ _ := ⟨hs.carries c p, ⟨[], .start rfl⟩, rfl⟩
  rcases hstart.job_header_new (H := H) rfl hok hnew with ⟨-, hstep⟩ | ⟨hno, -⟩
  · exact ⟨_, _, hstart.step hstep rfl rfl rfl, rfl, rfl⟩
  · exact absurd hreg hno

/-- The connection is saved. -/
theorem Server.Inv.alone_check (hs : s.Inv) (c : Conn) (hok : (unpackReq p).2 = true)
    (hnew : ¬ OldServer s.rpcs p) (hreg : Registered s.rpcs (hdr p).proc)
    (hclt : (hdr p).cltNonce ≠ 0) :
    ∃ t job, s.Alone H c p t job ∧ t.rpcs.replyWindow = s.rpcs.replyWindow ∧ job.pc = .check := by
  obtain ⟨t, job, h, hw, hpc⟩ := hs.alone_header (H := H) c hok hnew hreg
  rw [if_pos hclt] at hpc
  exact ⟨_, _, h.step (h.job_saveConn hpc false) rfl rfl rfl, hw, rfl⟩

/-- The handler is called. -/
theorem Server.Inv.alone_running (hs : s.Inv) (c : Conn) (hok : (unpackReq p).2 = true)
    (hnew : ¬ OldServer s.rpcs p) (hreg : Registered s.rpcs (hdr p).proc)
    (hexec : (hdr p).cltNonce = 0 ∨ (hdr p).xidRep < (hdr p).xid ∧
      (checkduplicateAndUpdate (s.rpcs.replyWindow (hdr p).cltNonce) (hdr p).xid
        (hdr p).xidRep).2 = .new) :
    ∃ t job, s.Alone H c p t job ∧ job.pc = .running := by
  have hcall : ∀ {t job}, s.Alone H c p t job → job.pc = .new →
      ∃ t job, s.Alone H c p t job ∧ job.pc = .running := by
    intro t job h hpc
    exact ⟨_, _, h.step (h.job_call hpc) rfl rfl rfl, rfl⟩
  by_cases hclt : (hdr p).cltNonce = 0
  · obtain ⟨t, job, h, -, hpc⟩ := hs.alone_header (H := H) c hok hnew hreg
    exact hcall h (by simpa [hclt] using hpc)
  · obtain ⟨hxid, hnew'⟩ := hexec.resolve_left hclt
    obtain ⟨t, job, h, hw, hpc⟩ := hs.alone_check (H := H) c hok hnew hreg hclt
    have hstep := h.job_check (H := H) hpc
    unfold Rpcs.check at hstep
    rw [h.hdr_eq] at hstep
    dsimp only at hstep
    rw [if_pos (show (hdr p).xid > (hdr p).xidRep from hxid), hw, hnew'] at hstep
    exact hcall (h.step hstep rfl rfl rfl) rfl

/-- A PDU that the server survives is harmless. -/
theorem harmless_of_survives (hs : s.Inv) (hlen : p.length ≤ maxPdu) (hsurv : s.Survives H c p) :
    s.Harmless H p := by
  unfold Harmless
  by_cases hok : (unpackReq p).2 = false
  · exact .inl hok
  have hok : (unpackReq p).2 = true := by simpa using hok
  by_cases hnew : OldServer s.rpcs p
  · exact .inr (.inl hnew)
  have hstart : s.Alone H c p _ _ := ⟨hs.carries c p, ⟨[], .start rfl⟩, rfl⟩
  have hreg : Registered s.rpcs (hdr p).proc := by
    rcases hstart.job_header_new (H := H) rfl hok hnew with ⟨hreg, -⟩ | ⟨-, habort⟩
    · exact hreg
    · exact absurd habort (hsurv.not_abort hstart)
  -- a call that is executed can be executed
  have hexec : ((hdr p).cltNonce = 0 ∨ (hdr p).xidRep < (hdr p).xid ∧
      (checkduplicateAndUpdate (s.rpcs.replyWindow (hdr p).cltNonce) (hdr p).xid
        (hdr p).xidRep).2 = .new) → s.Executable H p := by
    intro hcall
    obtain ⟨t, job, h, hpc⟩ := hs.alone_running (H := H) c hok hnew hreg hcall
    have hall : ∀ k, ∃ vs, s.Typed H p vs ∧ 0 ≤ ((s.handler H (hdr p).proc).meth vs k).1 := by
      intro k
      rcases h.job_ret (H := H) hpc hlen k with ⟨hvs, -⟩ | ⟨-, habort⟩
      · exact hvs
      · exact absurd habort (hsurv.not_abort h)
    obtain ⟨vs, hvs, -⟩ := hall 0
    refine ⟨vs, hvs, fun k => ?_⟩
    obtain ⟨vs', hvs', hpos⟩ := hall k
    rwa [Typed.unique hlen hvs hvs']
  have hclt : (hdr p).cltNonce ≠ 0 := by
    intro hclt
    obtain ⟨t, job, h, hpc⟩ := hs.alone_running (H := H) c hok hnew hreg (.inl hclt)
    rcases h.job_ret (H := H) hpc hlen 0 with ⟨-, b, e, hstep, -⟩ | ⟨-, habort⟩
    · have h₁ := h.step hstep rfl rfl rfl
      have hstep₁ := h₁.job_addReply (H := H) rfl
      unfold Rpcs.addReply at hstep₁
      rw [h₁.hdr_eq] at hstep₁
      dsimp only at hstep₁
      rw [if_pos hclt] at hstep₁
      have h₂ := h₁.step hstep₁ rfl rfl rfl
      -- the connection is dead, and no other one is saved
      have hstep₂ := h₂.job_choose (H := H) rfl true
      unfold Rpcs.choose at hstep₂
      rw [h₂.hdr_eq, hclt, h₂.inv.zero] at hstep₂
      simp only [ne_eq, reduceCtorEq, not_false_eq_true, and_self, if_true, Option.map_none] at hstep₂
      exact hsurv.not_abort h₂ hstep₂
    · exact hsurv.not_abort h habort
  have hxid : (hdr p).xidRep < (hdr p).xid := by
    by_contra hno
    obtain ⟨t, job, h, -, hpc⟩ := hs.alone_check (H := H) c hok hnew hreg hclt
    have hstep := h.job_check (H := H) hpc
    unfold Rpcs.check at hstep
    rw [h.hdr_eq] at hstep
    dsimp only at hstep
    rw [if_neg hno] at hstep
    exact hsurv.not_abort h hstep
  refine .inr (.inr ⟨hreg, hclt, hxid, ?_⟩)
  by_cases hst : (checkduplicateAndUpdate (s.rpcs.replyWindow (hdr p).cltNonce) (hdr p).xid
      (hdr p).xidRep).2 = .new
  · exact .inl (hexec (.inr ⟨hxid, hst⟩))
  · exact .inr hst

end

/-! ## The result -/

/-- In every state that a server can come to, it survives exactly the harmless PDUs. -/
theorem survives_iff {nonce : UInt32} {procs : List UInt32}
    (hreach : (serverSystem H (.new nonce procs)).Reachable (some s)) (c : Conn)
    (hlen : p.length ≤ maxPdu) : s.Survives H c p ↔ s.Harmless H p := by
  have hs := server_inv hreach
  constructor
  · intro hsurv
    exact harmless_of_survives hs hlen hsurv
  · intro hp
    exact survives_of_harmless hs hlen hp c

end

/-- A new server survives a call of a procedure that it has. -/
theorem survives_int_call : (Server.new 9 [5]).Survives (fun _ => okHandler) 3 (intCall 9 5) :=
  (survives_iff ⟨[], .start rfl⟩ 3 (by decide)).mpr (.inr (.inr ⟨.inr (by decide), by decide, by decide,
    .inl ⟨[⟨.int, (4 : Int32)⟩], ⟨rfl, by decide⟩, fun _ => (by decide : (0 : Int32) ≤ 0)⟩⟩))

/-- A new server does not survive a call of a procedure that it does not have. -/
theorem unknown_proc_aborts : ¬ (Server.new 9 [5]).Survives (fun _ => okHandler) 3 (intCall 9 6) := by
  intro hsurv
  exact (hsurv [] _ (.start rfl)).safe .header [] rfl

end Yfs.Rpc
