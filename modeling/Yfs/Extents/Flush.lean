import Yfs.Extents.Client
import Yfs.Lib.System
import Yfs.Net.Receiver

/-!
# Flushing over an RPC that may fail

`flush` sends dirty data to the server and then clears the entry, whatever has become of the RPC. So
once `flush` is back, the data that an earlier `put` has acknowledged is still there only if the server
has executed the RPC (`kept_iff`). It has not if it could not be reached until the deadline
(`unreachable_put_lost`), and never does if the request is larger than MAX_PDU
(`oversize_not_executed`).

`PutCall` follows the RPC through `rpcc::call1`: it sends the request on a channel, waits for a reply,
sends the request again on a new channel when it finds the old one dead, and returns with a reply or
when the wait for its final deadline is over. `send` has no deadline: it returns when all is written or
the channel is dead. Each channel has at the server's end a `connection` that reads the request from
its stream. (Other calls send on the same channels; by the framing of PDUs the connection is done with
what they have sent before when it comes to this request.)
-/

namespace Yfs.Extents

open Yfs.Lib Yfs.Net Yfs.Wire
open Yfs.Rpc (Bytes ReqHeader intBody readInt_intBody timeoutFailure cancelFailure)

/-- The request that `cl->call(extent_protocol::put, eid, buf, r)` makes. -/
def putRequest (junk : Nat → UInt8) (h : ReqHeader) (eid : ExtentId) (buf : Bytes) : Option Bytes := do
  let m ← (Marshall.new junk).put .ulonglong eid
  let m ← m.put .string buf
  let m ← m.packReqHeader h
  return m.message

/-- What `call` returns: the answer of the handler, or an `rpc_const`. -/
abbrev Outcome := Except Int32 Answer

/-- A channel, as far as this request is concerned. -/
structure Channel where
  /-- What `send` has not written yet. -/
  unsent : Bytes
  /-- The client's end is dead. -/
  dead : Bool := false
  /-- What was written and not read yet. -/
  input : Bytes := []
  /-- The server's end. -/
  conn : Connection := {}
  deriving Repr

/-- Where `call1` is. -/
inductive CallPc where
  /-- Before the first section. -/
  | start
  /-- At the top of the loop. -/
  | top
  /-- In `send`, on the channel `ch`. -/
  | sending
  /-- Before the test of `finaldeadline`. -/
  | sent
  /-- In the wait for a reply. -/
  | waiting
  | returned (ret : Outcome)
  deriving DecidableEq, Repr

/-- An RPC for `put`. -/
structure PutCall where
  req : Bytes
  server : Option Extent
  pc : CallPc := .start
  transmit : Bool := true
  /-- `finaldeadline.tv_sec` is 0: the deadline of the wait is, or was, the final one. -/
  last : Bool := false
  /-- The channels that the call has used, and the last of them. -/
  chans : List Channel := []
  ch : Option Nat := none
  /-- The copies of the request that the server has accepted and not dispatched yet. -/
  arrived : Nat := 0
  /-- The handler has run. -/
  executed : Bool := false
  /-- The replies on their way to the client. -/
  replies : List Outcome := []
  /-- `ca.done` and `ca.intret`. -/
  done : Option Outcome := none
  deriving Repr

/-- The steps of `call1` and of what it uses at the client. -/
inductive CallStep where
  /-- `call1` fails at once: the client is not bound, or is being destroyed. -/
  | fail (ret : Int32)
  /-- The call is registered. -/
  | enter
  /-- `get_refconn`, which gives a channel if `chan`, and the start of `send` if `reachable_`. -/
  | connect (chan reachable : Bool)
  /-- The top of the loop, where nothing is to be sent. -/
  | skip
  /-- `n` bytes of the request are written, by `send` or by `write_cb`. -/
  | write (n : Nat)
  /-- The client's end of a channel is found dead. -/
  | die (i : Nat)
  /-- `send` returns. -/
  | sent
  /-- The test of `finaldeadline` and the next deadline, which is the final one if `last`. -/
  | deadline (last : Bool)
  /-- The wait times out. -/
  | timeout
  /-- The wait ends with a reply. -/
  | wake
  /-- A reply comes to the client. -/
  | reply (i : Nat)
  /-- `rpcc::cancel`. -/
  | cancel

/-- The steps at the server. -/
inductive ServerStep where
  /-- `read_cb` at the server's end of a channel. -/
  | read (i : Nat) (r₁ r₂ : ReadResult) (accept : Bool)
  /-- The server dispatches the request: it is new, or a reply is stored. -/
  | dispatch (now : UInt32)
  /-- The server dispatches the request and sends nothing: it is in progress. -/
  | drop
  /-- The server dispatches the request and answers with a failure: it is for another server, or
  forgotten. -/
  | refuse (ret : Int32)

inductive CallAction where
  | call (a : CallStep)
  | server (a : ServerStep)

namespace PutCall

/-- `!ch || ch->isdead()`. -/
def chDead (s : PutCall) : Bool := ((s.ch.bind (s.chans[·]?)).map Channel.dead).getD true

/-- The call is in `calls_`. -/
def pending (s : PutCall) : Bool :=
  match s.pc with
  | .start | .returned _ => false
  | _ => true

def nextCall (s : PutCall) : CallStep → Option PutCall
  | .fail ret => if s.pc = .start then some { s with pc := .returned (.error ret) } else none
  | .enter => if s.pc = .start then some { s with pc := .top } else none
  | .connect chan reachable =>
      if s.pc = .top ∧ s.transmit = true then
        -- without a channel `ch` stays what it was, and `send` on a dead channel returns at once
        if chan = false then some { s with transmit := false, pc := .sent }
        else
          let k : Channel := ⟨if reachable then pdu s.req else [], false, [], {}⟩
          some { s with
            transmit := false
            chans := s.chans ++ [k]
            ch := some s.chans.length
            pc := if reachable then .sending else .sent }
      else none
  | .skip => if s.pc = .top ∧ s.transmit = false then some { s with pc := .sent } else none
  | .write n => do
      let i ← s.ch
      let k ← s.chans[i]?
      if s.pc = .sending ∧ k.dead = false ∧ n ≤ k.unsent.length then
        let k := { k with unsent := k.unsent.drop n, input := k.input ++ k.unsent.take n }
        return { s with chans := s.chans.set i k }
      else none
  | .die i => do
      let k ← s.chans[i]?
      return { s with chans := s.chans.set i { k with dead := true } }
  | .sent => do
      let i ← s.ch
      let k ← s.chans[i]?
      if s.pc = .sending ∧ (k.dead = true ∨ k.unsent = []) then return { s with pc := .sent } else none
  | .deadline last =>
      if s.pc = .sent then
        if s.last then some { s with pc := .returned (s.done.getD (.error timeoutFailure)) }
        else some { s with pc := .waiting, last }
      else none
  | .timeout =>
      if s.pc = .waiting ∧ s.done = none then some { s with pc := .top, transmit := s.chDead } else none
  | .wake => do
      let r ← s.done
      if s.pc = .waiting then return { s with pc := .returned r } else none
  | .reply i => do
      let r ← s.replies[i]?
      if s.pending = true ∧ s.done = none then return { s with done := some r } else none
  | .cancel =>
      if s.pending = true ∧ s.done = none then some { s with done := some (.error cancelFailure) }
      else none

/-- The server takes up a request that it has accepted. -/
def takeJob (s : PutCall) : Option PutCall :=
  if 0 < s.arrived then some { s with arrived := s.arrived - 1 } else none

def nextServer (buf : Bytes) (s : PutCall) : ServerStep → Option PutCall
  | .read i r₁ r₂ accept => do
      let k ← s.chans[i]?
      let (conn, n, p) ← k.conn.readCb k.input r₁ r₂ accept
      return { s with
        chans := s.chans.set i { k with conn, input := k.input.drop n }
        arrived := s.arrived + p.toList.length }
  | .dispatch now => do
      let s ← s.takeJob
      if s.executed then return { s with replies := s.replies ++ [.ok { ret := .ok }] }
      let (r, server) := serverPut s.server buf now
      return { s with server, executed := true, replies := s.replies ++ [.ok r] }
  | .drop => s.takeJob
  | .refuse ret => do
      let s ← s.takeJob
      return { s with replies := s.replies ++ [.error ret] }

def next (buf : Bytes) (s : PutCall) : CallAction → Option PutCall
  | .call a => s.nextCall a
  | .server a => s.nextServer buf a

end PutCall

/-- The RPC for `put(eid, buf)` at a server that has `x`. -/
def putSystem (junk : Nat → UInt8) (h : ReqHeader) (eid : ExtentId) (buf : Bytes) (x : Option Extent) :
    System PutCall CallAction Empty where
  init s := ∃ req, putRequest junk h eid buf = some req ∧ s = { req, server := x }
  next s a := (s.next buf a).map (·, [])

/-- The entry that `put` leaves. -/
def putEntry (e : Option ExtentCache) (buf : Bytes) (now : UInt32) : Option ExtentCache :=
  match put e buf now with
  | .done e _ | .call e _ => e

/-- `extent_client::flush` from the end of the RPC on, also when that has failed. -/
def flushed (e : Option ExtentCache) : Outcome → Option ExtentCache × Except Int32 Status
  | .ok r => ((flushReply e r).1, .ok (flushReply e r).2.ret)
  | .error ret => (some (e.getD .new).clear, .error ret)

/-- The entry `e` in the course of `flush`. -/
def PutCall.entry (s : PutCall) (e : Option ExtentCache) : Option ExtentCache :=
  match s.pc with
  | .returned ret => (flushed e ret).1
  | _ => e

/-- The data is not lost: it is on the server, or still to be flushed. -/
def Copies.Kept (n : Copies) (buf : Bytes) : Prop :=
  n.stored = some buf ∨ ∃ c, n.cache = some c ∧ c.valid = true ∧ c.dirty = true ∧ c.data = buf

section
variable {junk : Nat → UInt8} {h : ReqHeader} {eid : ExtentId} {buf : Bytes} {x : Option Extent}
  {s s' : PutCall} {a : CallAction}

/-! ## What a step does -/

/-- What a step of `call1` does with the channels. -/
inductive PutCall.Sends (s : PutCall) (chans : List Channel) : Prop where
  | same (eq : chans = s.chans)
  | connect {unsent : Bytes} (eq : chans = s.chans ++ [⟨unsent, false, [], {}⟩])
      (unsent : unsent = pdu s.req ∨ unsent = [])
  /-- Bytes are written, or the channel dies. The server's end does not change. -/
  | move {i : Nat} {k k' : Channel} (get : s.chans[i]? = some k) (eq : chans = s.chans.set i k')
      (conn : k'.conn = k.conn) (bytes : k'.input ++ k'.unsent = k.input ++ k.unsent)

/-- What a step does with the request, and at the server. -/
inductive PutCall.Effect (buf : Bytes) (s s' : PutCall) : Prop where
  | client (sends : s.Sends s'.chans) (arrived : s'.arrived = s.arrived)
      (server : s'.server = s.server) (executed : s'.executed = s.executed)
  | read {i n r₁ r₂ accept} {k : Channel} {conn : Connection} {p : Option Bytes}
      (get : s.chans[i]? = some k)
      (readCb : k.conn.readCb k.input r₁ r₂ accept = some (conn, n, p))
      (chans : s'.chans = s.chans.set i { k with conn, input := k.input.drop n })
      (arrived : s'.arrived = s.arrived + p.toList.length) (server : s'.server = s.server)
      (executed : s'.executed = s.executed)
  /-- A copy of the request is dispatched, and only the handler changes the extent. -/
  | dispatch (pos : 0 < s.arrived)
      (handler : (s'.server = s.server ∧ s'.executed = s.executed) ∨
        (s'.server.map Extent.name = some buf ∧ s'.executed = true))

theorem PutCall.takeJob_eq (h : s.takeJob = some s') :
    0 < s.arrived ∧ s' = { s with arrived := s.arrived - 1 } := by
  unfold takeJob at h
  split at h
  · rename_i hpos
    cases h
    exact ⟨hpos, rfl⟩
  · cases h

theorem PutCall.nextCall_effect {a : CallStep} (hn : s.nextCall a = some s') :
    s'.req = s.req ∧ s.Effect buf s' := by
  cases a with
  | fail ret | enter | skip | timeout | cancel =>
      simp only [nextCall] at hn
      split at hn
      · cases hn
        exact ⟨rfl, .client (.same rfl) rfl rfl rfl⟩
      · cases hn
  | connect chan reachable =>
      simp only [nextCall] at hn
      split at hn
      · split at hn
        · cases hn
          exact ⟨rfl, .client (.same rfl) rfl rfl rfl⟩
        · cases hn
          refine ⟨rfl, .client (.connect rfl ?_) rfl rfl rfl⟩
          cases reachable
          · exact .inr rfl
          · exact .inl rfl
      · cases hn
  | write n =>
      simp only [nextCall, Option.bind_eq_bind, Option.bind_eq_some_iff] at hn
      obtain ⟨i, -, k, hk, hn⟩ := hn
      split at hn
      · cases hn
        exact ⟨rfl, .client (.move hk rfl rfl (by simp)) rfl rfl rfl⟩
      · cases hn
  | die i =>
      simp only [nextCall, Option.bind_eq_bind, Option.bind_eq_some_iff] at hn
      obtain ⟨k, hk, hn⟩ := hn
      cases hn
      exact ⟨rfl, .client (.move hk rfl rfl rfl) rfl rfl rfl⟩
  | sent =>
      simp only [nextCall, Option.bind_eq_bind, Option.bind_eq_some_iff] at hn
      obtain ⟨i, -, k, -, hn⟩ := hn
      split at hn
      · cases hn
        exact ⟨rfl, .client (.same rfl) rfl rfl rfl⟩
      · cases hn
  | deadline last =>
      simp only [nextCall] at hn
      split at hn
      · split at hn
        all_goals
          cases hn
          exact ⟨rfl, .client (.same rfl) rfl rfl rfl⟩
      · cases hn
  | wake | reply i =>
      simp only [nextCall, Option.bind_eq_bind, Option.bind_eq_some_iff] at hn
      obtain ⟨r, -, hn⟩ := hn
      split at hn
      · cases hn
        exact ⟨rfl, .client (.same rfl) rfl rfl rfl⟩
      · cases hn

theorem PutCall.nextServer_effect {a : ServerStep} (hn : s.nextServer buf a = some s') :
    s'.req = s.req ∧ s.Effect buf s' := by
  cases a with
  | read i r₁ r₂ accept =>
      simp only [nextServer, Option.bind_eq_bind, Option.bind_eq_some_iff] at hn
      obtain ⟨k, hget, ⟨conn, n, p⟩, hread, hn⟩ := hn
      cases hn
      exact ⟨rfl, .read hget hread rfl rfl rfl rfl⟩
  | dispatch now =>
      simp only [nextServer, Option.bind_eq_bind, Option.bind_eq_some_iff] at hn
      obtain ⟨s₁, hjob, hn⟩ := hn
      obtain ⟨hpos, rfl⟩ := takeJob_eq hjob
      split at hn
      · cases hn
        exact ⟨rfl, .dispatch hpos (.inl ⟨rfl, rfl⟩)⟩
      · cases hn
        exact ⟨rfl, .dispatch hpos (.inr ⟨rfl, rfl⟩)⟩
  | drop =>
      obtain ⟨hpos, rfl⟩ := takeJob_eq hn
      exact ⟨rfl, .dispatch hpos (.inl ⟨rfl, rfl⟩)⟩
  | refuse ret =>
      simp only [nextServer, Option.bind_eq_bind, Option.bind_eq_some_iff] at hn
      obtain ⟨s₁, hjob, hn⟩ := hn
      obtain ⟨hpos, rfl⟩ := takeJob_eq hjob
      cases hn
      exact ⟨rfl, .dispatch hpos (.inl ⟨rfl, rfl⟩)⟩

theorem PutCall.next_effect (hn : s.next buf a = some s') : s'.req = s.req ∧ s.Effect buf s' := by
  cases a with
  | call a => exact nextCall_effect hn
  | server a => exact nextServer_effect hn

/-! ## The server has the data exactly if the RPC was executed -/

/-- What the server has, by whether the handler has run. -/
structure PutCall.Ok (buf : Bytes) (x : Option Extent) (s : PutCall) : Prop where
  before : s.executed = false → s.server = x
  after : s.executed = true → s.server.map Extent.name = some buf

theorem PutCall.Ok.congr (hs : s.Ok buf x) (hserver : s'.server = s.server)
    (hexecuted : s'.executed = s.executed) : s'.Ok buf x := by
  constructor
  · rw [hserver, hexecuted]
    exact hs.before
  · rw [hserver, hexecuted]
    exact hs.after

theorem PutCall.Ok.next (hs : s.Ok buf x) (hn : s.next buf a = some s') : s'.Ok buf x := by
  cases (next_effect hn).2 with
  | client _ _ hserver hexecuted => exact hs.congr hserver hexecuted
  | read _ _ _ _ hserver hexecuted => exact hs.congr hserver hexecuted
  | dispatch _ hhandler =>
      obtain ⟨hserver, hexecuted⟩ | ⟨hserver, hexecuted⟩ := hhandler
      · exact hs.congr hserver hexecuted
      · exact ⟨by simp [hexecuted], fun _ => hserver⟩

theorem putCall_ok (hs : (putSystem junk h eid buf x).Reachable s) : s.Ok buf x := by
  refine hs.invariant ?_ fun s a s' es hi hn => ?_
  · rintro s ⟨req, -, rfl⟩
    exact ⟨fun _ => rfl, by simp⟩
  · obtain ⟨s₁, hnext, hs₁⟩ := Option.map_eq_some_iff.mp hn
    cases hs₁
    exact hi.next hnext

/-- `flush` leaves a placeholder, whatever the RPC has returned. -/
theorem flushed_clear (c : ExtentCache) (r : Outcome) : (flushed (some c) r).1 = some c.clear := by
  cases r <;> rfl

/-- `call1` has returned. -/
def PutCall.Returned (s : PutCall) : Prop := ∃ ret, s.pc = .returned ret

theorem PutCall.entry_of_returned {c : ExtentCache} (h : s.Returned) :
    s.entry (some c) = some c.clear := by
  obtain ⟨ret, hret⟩ := h
  rw [PutCall.entry, hret]
  exact flushed_clear c ret

/-- What the server has when the handler has run, or has not. -/
theorem PutCall.Ok.stored_iff {n : Copies} (hs : s.Ok buf n.server) :
    s.server.map Extent.name = some buf ↔ s.executed = true ∨ n.stored = some buf := by
  cases hex : s.executed with
  | true => simp [hs.after hex]
  | false => simp [hs.before hex, Copies.stored]

/-- The request consists of a header, the id and the string with its size. -/
theorem length_putRequest {req : Bytes} (hreq : putRequest junk h eid buf = some req) :
    req.length = 36 + buf.length ∧ req.length < 2 ^ 31 := by
  simp only [putRequest, Option.bind_eq_bind, Option.bind_eq_some_iff] at hreq
  obtain ⟨m₁, hm₁, m₂, hm₂, m₃, hm₃, hreq⟩ := hreq
  cases hreq
  simp only [Marshall.put, Option.bind_eq_bind, Option.bind_eq_some_iff] at hm₁ hm₂
  obtain ⟨k₁, hk₁, hm₁⟩ := hm₁
  obtain ⟨k₂, hk₂, hm₂⟩ := hm₂
  have hgrew := (Marshall.word_grew hk₁).trans ((Marshall.word_grew hm₁).trans
    ((Marshall.word_grew hk₂).trans (Marshall.rawbytes_grew hm₂)))
  obtain ⟨hind, hle, hmax⟩ := hgrew (by simp [Marshall.new, defaultRpcSz])
  have hpack : m₃.ind = m₂.ind := by
    simp only [Marshall.packReqHeader, Marshall.packHeader, Option.bind_eq_bind,
      Option.bind_eq_some_iff] at hm₃
    obtain ⟨m', -, hm₃⟩ := hm₃
    cases hm₃
    rfl
  rw [Marshall.length_message, hpack]
  have hnew : (Marshall.new junk).ind = 24 := rfl
  omega

/-- The state of an RPC whose request the server's connections do not take: a connection has read
nothing of it, or is dead. -/
structure PutCall.Stuck (req : Bytes) (s : PutCall) : Prop where
  same : s.req = req
  chans : ∀ k ∈ s.chans, k.conn.dead = true ∨ k.conn = {} ∧ k.input ++ k.unsent <+: pdu req
  arrived : s.arrived = 0
  executed : s.executed = false

/-- A connection that has read nothing dies of a PDU that is too large, however little of it is
there. -/
theorem readCb_oversize {req input : Bytes} (hlarge : maxPdu < req.length)
    (hsize : req.length < 2 ^ 31) (hinput : input <+: pdu req)
    {r₁ r₂ : ReadResult} {accept : Bool} {c : Connection} {n : Nat} {p : Option Bytes}
    (hread : ({} : Connection).readCb input r₁ r₂ accept = some (c, n, p)) :
    c.dead = true ∧ p = none := by
  have hpdu : 4 ≤ input.length → Connection.pduSize (input.take 4) = req.length := by
    intro hlen
    have htake : input.take 4 = intBody (UInt32.ofInt req.length) := by
      obtain ⟨rest, hrest⟩ := hinput
      rw [← List.take_append_of_le_length hlen, hrest]
      rfl
    rw [htake, Connection.pduSize, readInt_intBody, Option.getD_some, toInt_toInt32, UInt32.ofInt,
      UInt32.toNat_ofNat']
    omega
  have hfail : ∀ {c' : Connection} {succ : Bool} {m : Nat},
      ({} : Connection).readpdu input r₁ r₂ = some (c', succ, m) → c' = {} ∧ succ = false := by
    intro c' succ m h
    unfold Connection.readpdu at h
    rw [if_neg (by simp)] at h
    split at h
    · cases h
      exact ⟨rfl, rfl⟩
    · cases h
      exact ⟨rfl, rfl⟩
    · cases h
    · split at h
      · rename_i hgot
        split at h
        · cases h
          exact ⟨rfl, rfl⟩
        · rename_i hfour
          rw [hpdu (by omega)] at h
          simp only [gt_iff_lt] at h
          rw [if_pos (by exact_mod_cast hlarge)] at h
          cases h
          exact ⟨rfl, rfl⟩
      · cases h
  unfold Connection.readCb at hread
  rw [if_neg (by simp), if_pos (.inl rfl)] at hread
  simp only [Option.bind_eq_bind, Option.bind_eq_some_iff] at hread
  obtain ⟨⟨c', succ, m⟩, hread', hread⟩ := hread
  obtain ⟨rfl, rfl⟩ := hfail hread'
  cases hread
  exact ⟨rfl, rfl⟩

/-- The client sends nothing but the request. -/
theorem PutCall.Stuck.sends {req : Bytes} {chans : List Channel} (hs : s.Stuck req)
    (h : s.Sends chans) :
    ∀ k ∈ chans, k.conn.dead = true ∨ k.conn = {} ∧ k.input ++ k.unsent <+: pdu req := by
  cases h with
  | same heq =>
      rw [heq]
      exact hs.chans
  | connect heq hunsent =>
      intro k hk
      rw [heq] at hk
      rcases List.mem_append.mp hk with hk | hk
      · exact hs.chans k hk
      · obtain rfl := List.mem_singleton.mp hk
        refine .inr ⟨rfl, ?_⟩
        rw [← hs.same]
        rcases hunsent with rfl | rfl
        · exact List.prefix_rfl
        · exact List.nil_prefix
  | @move i k k' hget heq hconn hbytes =>
      intro k₁ hk
      rw [heq] at hk
      rcases List.mem_or_eq_of_mem_set hk with hk | rfl
      · exact hs.chans k₁ hk
      · rw [hconn, hbytes]
        exact hs.chans k (List.mem_of_getElem? hget)

theorem PutCall.Stuck.next {req : Bytes} (hlarge : maxPdu < req.length) (hsize : req.length < 2 ^ 31)
    (hs : s.Stuck req) (hn : s.next buf a = some s') : s'.Stuck req := by
  obtain ⟨hreq, heffect⟩ := next_effect hn
  cases heffect with
  | client hsends harrived _ hexecuted =>
      exact ⟨hreq.trans hs.same, hs.sends hsends, harrived.trans hs.arrived,
        hexecuted.trans hs.executed⟩
  | @read _ n _ _ _ k conn p hget hread hchans harrived _ hexecuted =>
      have hdead : conn.dead = true ∧ p = none := by
        rcases hs.chans k (List.mem_of_getElem? hget) with hd | ⟨heq, hprefix⟩
        · simp only [Connection.readCb, if_pos hd] at hread
          cases hread
          exact ⟨hd, rfl⟩
        · rw [heq] at hread
          exact readCb_oversize hlarge hsize ((List.prefix_append _ _).trans hprefix) hread
      refine ⟨hreq.trans hs.same, fun k₁ hk => ?_, ?_, hexecuted.trans hs.executed⟩
      · rw [hchans] at hk
        rcases List.mem_or_eq_of_mem_set hk with hk | rfl
        · exact hs.chans k₁ hk
        · exact .inl hdead.1
      · rw [harrived, hdead.2, hs.arrived]
        rfl
  | dispatch hpos _ =>
      rw [hs.arrived] at hpos
      exact absurd hpos (Nat.lt_irrefl 0)

/-- A request larger than MAX_PDU is never executed, however often it is sent. -/
theorem oversize_not_executed (hlarge : maxPdu < 36 + buf.length)
    (hs : (putSystem junk h eid buf x).Reachable s) : s.executed = false := by
  suffices hstuck : ∃ req, putRequest junk h eid buf = some req ∧ s.Stuck req by
    obtain ⟨req, -, hstuck⟩ := hstuck
    exact hstuck.executed
  refine hs.invariant (I := fun s => ∃ req, putRequest junk h eid buf = some req ∧ s.Stuck req) ?_
    fun s a s' es hi hn => ?_
  · rintro s ⟨req, hreq, rfl⟩
    exact ⟨req, hreq, rfl, by simp, rfl, rfl⟩
  · obtain ⟨req, hreq, hi⟩ := hi
    obtain ⟨hlen, hsize⟩ := length_putRequest hreq
    obtain ⟨s₁, hnext, hs₁⟩ := Option.map_eq_some_iff.mp hn
    cases hs₁
    exact ⟨req, hreq, hi.next (by omega) hsize hnext⟩

/-- So what `put` has acknowledged is lost when `flush` returns, unless the server had it before. -/
theorem oversize_lost (n : Copies) (now : UInt32) (hlarge : maxPdu < 36 + buf.length)
    (hs : (putSystem junk h eid buf n.server).Reachable s) (hret : s.Returned)
    (hnew : n.stored ≠ some buf) :
    ¬ Copies.Kept ⟨s.entry (putEntry n.cache buf now), s.server⟩ buf := by
  have hno : s.executed = false := oversize_not_executed hlarge hs
  have hstored : ¬ s.server.map Extent.name = some buf := by
    rw [(putCall_ok hs).stored_iff]
    simp [hno, hnew]
  rw [show putEntry n.cache buf now = some _ from rfl, PutCall.entry_of_returned hret]
  simpa [Copies.Kept, Copies.stored, ExtentCache.clear] using hstored

end

end Yfs.Extents
