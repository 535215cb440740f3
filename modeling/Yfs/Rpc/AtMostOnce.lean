import Yfs.Rpc.Network

/-!
# At-most-once, end to end

`WorldOk` ties the parties together: every client satisfies `ClientOk`, every instance `ServerOk`,
requests in the network were sent by the client their connection belongs to, replies by the instance
it leads to, and what a client holds as a successful result was produced by a handler for that very
request (`Justified`). `worldOk_run` says that it holds after every run in which no client makes
`2 ^ 31` calls.

From it, `at_most_once`: a call other than bind names the one instance that may execute it, because
its header carries the nonce that some bind returned, and that instance executes it at most once.
-/

namespace Yfs.Rpc

open Yfs.Lib Function

/-! ## What a client holds -/

/-- The client uses only connections it owns, and what it holds as the result of a call was
produced for that call. -/
structure Justified (owns : Conn → Prop) (produced : Request → Int32 → Bytes → Prop) (s : Rpcc) :
    Prop where
  chan : ∀ k, s.chan = some k → owns k
  ch : ∀ f ∈ s.frames, ∀ k, f.ch = some k → owns k
  result : ∀ f ∈ s.frames, f.done = true → ¬ f.intret < 0 → produced f.req f.intret f.un
  returned : ∀ f ∈ s.frames, ∀ r, f.pc = .returned r → r = f.result
  bound : s.bindDone = true → s.srvNonce ≠ 0
  nonce : ∀ f ∈ s.frames, f.req.hdr.proc ≠ bindProc → f.req.hdr.srvNonce ≠ 0

section
variable {owns owns' : Conn → Prop} {produced produced' : Request → Int32 → Bytes → Prop}
  {s s' : Rpcc} {τ es : List ClientEvent} {i : Nat} {f f' : Call}

theorem justified_new (cltNonce : UInt32) (lossytest : Bool) :
    Justified owns produced (.new cltNonce lossytest) := by
  constructor <;> simp [Rpcc.new]

theorem Justified.mono (h : Justified owns produced s) (howns : ∀ k, owns k → owns' k)
    (hprod : ∀ req ret un, produced req ret un → produced' req ret un) :
    Justified owns' produced' s where
  chan k hk := howns k (h.chan k hk)
  ch f hf k hk := howns k (h.ch f hf k hk)
  result f hf hd hr := hprod _ _ _ (h.result f hf hd hr)
  returned := h.returned
  bound := h.bound
  nonce := h.nonce

/-- A frame moves and keeps what it holds. -/
theorem Justified.setFrame (h : Justified owns produced s) (hf : f ∈ s.frames)
    (hreq : f'.req = f.req) (hch : ∀ k, f'.ch = some k → owns k)
    (hres : f'.done = true → ¬ f'.intret < 0 → produced f'.req f'.intret f'.un)
    (hret : ∀ r, f'.pc = .returned r → r = f'.result) :
    Justified owns produced (s.setFrame i f') where
  chan := h.chan
  ch g hg := by
    rcases mem_setFrame hg with hg | rfl
    · exact h.ch g hg
    · exact hch
  result g hg := by
    rcases mem_setFrame hg with hg | rfl
    · exact h.result g hg
    · exact hres
  returned g hg := by
    rcases mem_setFrame hg with hg | rfl
    · exact h.returned g hg
    · exact hret
  bound := h.bound
  nonce g hg := by
    rcases mem_setFrame hg with hg | rfl
    · exact h.nonce g hg
    · rw [hreq]
      exact h.nonce f hf

/-- A frame moves on to a place before the return. -/
theorem Justified.setPc (h : Justified owns produced s) (hf : f ∈ s.frames) {pc : CallPc}
    (hpc : ∀ r, pc ≠ .returned r) : Justified owns produced (s.setFrame i { f with pc := pc }) :=
  h.setFrame hf rfl (h.ch f hf) (h.result f hf) fun r hr => absurd hr (hpc r)

/-- A call that did not fail has its value from a handler. -/
theorem Justified.of_result (h : Justified owns produced s) (hf : f ∈ s.frames)
    (hr : ¬ f.result < 0) : produced f.req f.result f.un := by
  unfold Call.result at hr ⊢
  split at hr
  · rename_i hd
    rw [if_pos hd]
    exact h.result f hf hd hr
  · exact absurd (by decide) hr

theorem CallPc.not_returned {pc : CallPc} (h : pc.pending = true) (r : Int32) :
    pc ≠ .returned r := by
  rintro rfl
  cases h

theorem Justified.gotPdu (h : Justified owns produced s) (hok : ClientOk s τ) {rep : Reply}
    (hrep : ¬ rep.hdr.ret < 0 → ∀ req ∈ s.requests, req.hdr.xid = rep.hdr.xid →
      produced req rep.hdr.ret rep.body) : Justified owns produced (s.gotPdu rep) := by
  have h' : Justified owns produced (s.updateXidRep rep.hdr.xid) := { h with }
  simp only [Rpcc.gotPdu]
  cases hl : (s.updateXidRep rep.hdr.xid).calls.lookup rep.hdr.xid with
  | none => exact h'
  | some i =>
      obtain ⟨f, hf, hx, hp⟩ := hok.lookup hl
      have hf' : (s.updateXidRep rep.hdr.xid).frames[i]? = some f := hf
      simp only [hf']
      split
      · exact h'
      · have hmem := List.mem_of_getElem? hf
        refine h'.setFrame hmem rfl (h.ch f hmem) (fun _ hr => hrep hr f.req (frame_mem hf) hx)
          fun r hr => absurd hr (CallPc.not_returned hp r)

theorem Justified.cancel (h : Justified owns produced s) (hok : ClientOk s τ) :
    Justified owns produced s.cancel := by
  -- a frame after `cancel`: as before, or pending and failed
  have hframe : ∀ g ∈ s.cancel.frames, g ∈ s.frames ∨ ∃ f ∈ s.frames, f.pc.pending = true ∧
      g = { f with done := true, intret := cancelFailure } := by
    intro g hg
    simp only [Rpcc.cancel, List.mem_mapIdx] at hg
    obtain ⟨i, hi, rfl⟩ := hg
    split
    · rename_i hc
      obtain ⟨⟨x, j⟩, hc, hj⟩ := List.any_eq_true.mp hc
      simp only [decide_eq_true_eq] at hj
      obtain ⟨f, hf, -, hp⟩ := (hok.calls x j).mp hc
      obtain ⟨hlt, rfl⟩ := List.getElem?_eq_some_iff.mp hf
      subst hj
      exact .inr ⟨_, List.getElem_mem hlt, hp, rfl⟩
    · exact .inl (List.getElem_mem hi)
  refine ⟨h.chan, fun g hg => ?_, fun g hg => ?_, fun g hg => ?_, h.bound, fun g hg => ?_⟩
  all_goals rcases hframe g hg with hg | ⟨f, hf, hp, rfl⟩
  · exact h.ch g hg
  · exact h.ch f hf
  · exact h.result g hg
  · exact fun _ hr => absurd (show cancelFailure < 0 by decide) hr
  · exact h.returned g hg
  · exact fun r hr => absurd hr (CallPc.not_returned hp r)
  · exact h.nonce g hg
  · exact h.nonce f hf

theorem Justified.call1 (h : Justified owns produced s) {proc : UInt32} {args : Bytes} :
    Justified owns produced (s.call1 proc args).1 := by
  simp only [Rpcc.call1]
  split
  · exact h
  split
  · exact h
  rename_i hbound _
  refine ⟨h.chan, fun g hg => ?_, fun g hg => ?_, fun g hg => ?_, h.bound, fun g hg => ?_⟩
  all_goals
    rcases List.mem_append.mp hg with hg' | hg'
    on_goal 2 =>
      simp only [List.mem_singleton] at hg'
      subst hg'
  · exact h.ch g hg'
  · simp
  · exact h.result g hg'
  · simp
  · exact h.returned g hg'
  · simp
  · exact h.nonce g hg'
  · -- only a bound client makes calls other than bind
    exact fun hp => h.bound (by tauto)

theorem Justified.transmit (h : Justified owns produced s) (hf : f ∈ s.frames) :
    Justified owns produced (s.transmit f).1 ∧ (s.transmit f).1.frames = s.frames ∧
      ∀ e ∈ (s.transmit f).2, ∃ k req, e = .sent k req ∧ owns k := by
  rcases s.transmit_cases f with ht | ⟨c, hc, ht | ⟨req, -, ht⟩⟩ <;> rw [ht]
  · exact ⟨h, rfl, by simp⟩
  · exact ⟨h, rfl, by simpa using h.ch f hf c hc⟩
  · exact ⟨{ h with }, rfl, by simpa using h.ch f hf c hc⟩

/-- Every step keeps the results justified, and the events it emits are justified too. -/
theorem Justified.step {a : ClientAction} (h : Justified owns produced s) (hok : ClientOk s τ)
    (hs : s.Step a s' es)
    (hconn : ∀ i dead k, a = .getRefconn i dead (some k) → owns k)
    (hrep : ∀ rep, a = .gotPdu rep → ¬ rep.hdr.ret < 0 → ∀ req ∈ s.requests,
      req.hdr.xid = rep.hdr.xid → produced req rep.hdr.ret rep.body)
    (hbind : ∀ req un r, produced req 0 un → req.hdr.proc = bindProc → readInt un = some r → r ≠ 0) :
    Justified owns produced s' ∧
      (∀ req ret un, .returned req ret un ∈ es →
        req ∈ s.requests ∧ (¬ ret < 0 → produced req ret un)) ∧
      ∀ k req, .sent k req ∈ es → owns k := by
  cases hs with
  | call1 =>
      refine ⟨h.call1, ?_, ?_⟩ <;> simp only [Rpcc.call1] <;> split <;> simp <;> split <;> simp
  | @getRefconn i f last dead conn hf hpc =>
      have hmem := List.mem_of_getElem? hf
      have hchan : ∀ k, (if s.chan = none ∨ dead then conn else s.chan) = some k → owns k := by
        intro k hk
        split at hk
        · exact hconn i dead k (by rw [hk])
        · exact h.chan k hk
      refine ⟨Justified.setFrame (f := f) { h with chan := hchan } hmem rfl (fun k hk => ?_)
        (h.result f hmem) (by simp), by simp, by simp⟩
      rcases Option.or_eq_some_iff.mp hk with hk | ⟨-, hk⟩
      · exact hchan k hk
      · exact h.ch f hmem k hk
  | @send i f final last hf hpc =>
      obtain ⟨hj, hframes, hes⟩ := h.transmit (List.mem_of_getElem? hf)
      refine ⟨hj.setPc (hframes ▸ List.mem_of_getElem? hf) (by cases final <;> simp),
        fun req ret un he => ?_, fun k req he => ?_⟩
      · obtain ⟨k, req, he, -⟩ := hes _ he
        cases he
      · obtain ⟨k, req, he, hk⟩ := hes _ he
        cases he
        exact hk
  | @wake i f final hf hpc =>
      exact ⟨h.setPc (List.mem_of_getElem? hf) (by simp), by simp, by simp⟩
  | @timeout i f final pc dead last hf hpc hpc' =>
      refine ⟨h.setPc (List.mem_of_getElem? hf) ?_, by simp, by simp⟩
      rcases hpc' with rfl | rfl | rfl <;> simp
  | @leave i f hf hpc =>
      refine ⟨Justified.setPc (s := Rpcc.updateXidRep { s with calls := _ } _) { h with }
        (List.mem_of_getElem? hf) (by simp), by simp, by simp⟩
  | @finish i f hf hpc =>
      have hmem := List.mem_of_getElem? hf
      have hj : Justified owns produced (s.remember f) := by
        unfold Rpcc.remember
        split
        · exact { h with }
        · exact h
      have hframes : (s.remember f).frames = s.frames := by
        unfold Rpcc.remember
        split <;> rfl
      refine ⟨hj.setFrame (f := f) (hframes ▸ hmem) rfl (h.ch f hmem) (h.result f hmem) ?_, ?_,
        by simp⟩
      · rintro r ⟨⟩
        rfl
      · intro req ret un he
        simp only [List.mem_singleton, ClientEvent.returned.injEq] at he
        obtain ⟨rfl, rfl, rfl⟩ := he
        exact ⟨frame_mem hf, h.of_result hmem⟩
  | @bound i f r hf hpc hp hr =>
      have hmem := List.mem_of_getElem? hf
      -- a bind that succeeds has the nonce of the instance that answered it
      have hzero : f.result = 0 := (h.returned f hmem 0 hpc).symm
      have hprod := h.of_result hmem (by rw [hzero]; decide)
      rw [hzero] at hprod
      refine ⟨Justified.setPc (s := { s with bindDone := true, srvNonce := r }) ?_ hmem (by simp),
        by simp, by simp⟩
      exact { h with bound := fun _ => hbind f.req f.un r hprod hp hr }
  | gotPdu => exact ⟨h.gotPdu hok (hrep _ rfl), by simp, by simp⟩
  | cancel => exact ⟨h.cancel hok, by simp, by simp⟩
  | setReachable => exact ⟨{ h with }, by simp, by simp⟩

end

/-! ## The whole -/

/-- Connection `k` belongs to client `c`. -/
def World.Owns (w : World) (c : UInt32) (k : Conn) : Prop := ∃ n, w.conns[k]? = some (c, n)

/-- Some handler has produced this for `req`. -/
def Produced (τ : List WorldEvent) (req : Request) (ret : Int32) (un : Bytes) : Prop :=
  ∃ n, .server n (.produced req ret un) ∈ τ

structure WorldOk (w : World) (τ : List WorldEvent) : Prop where
  nonce : ∀ c, (w.clients c).cltNonce = c
  silent : clientTrace 0 τ = []
  client : ∀ c, ClientOk (w.clients c) (clientTrace c τ)
  justified : ∀ c, Justified (w.Owns c) (Produced τ) (w.clients c)
  returned : ∀ c req ret un, .client c (.returned req ret un) ∈ τ →
    .client c (.started req) ∈ τ ∧ (¬ ret < 0 → Produced τ req ret un)
  server : ∀ n s, w.servers n = .up s → s.nonce = n ∧ ServerOk s (serverTrace n τ)
  events : ∀ n, EventsOk n (serverTrace n τ)
  never : ∀ n, w.servers n = .never → serverTrace n τ = []
  zero : w.servers 0 = .never
  reqs : ∀ k req, (k, req) ∈ w.reqs → ∃ c, w.Owns c k ∧ .client c (.sent k req) ∈ τ
  received : ∀ n k req, .server n (.received k req) ∈ τ → (k, req) ∈ w.reqs
  reps : ∀ k b, (k, b) ∈ w.reps → ∃ n, .server n (.sent k b) ∈ τ

theorem worldOk_initial (lossytest : UInt32 → Bool) : WorldOk (.initial lossytest) [] where
  nonce _ := rfl
  silent := rfl
  client c := clientOk_new c (lossytest c)
  justified c := justified_new c (lossytest c)
  returned := by simp
  server := by simp [World.initial]
  events n := (serverOk_new n []).events
  never _ _ := rfl
  zero := rfl
  reqs := by simp [World.initial]
  received := by simp
  reps := by simp [World.initial]

section
variable {w w' : World} {τ es : List WorldEvent} {c c' n : UInt32} {k : Conn} {req req' : Request}

theorem World.Owns.unique (h : w.Owns c k) (h' : w.Owns c' k) : c = c' := by
  obtain ⟨n, hn⟩ := h
  obtain ⟨n', hn'⟩ := h'
  rw [hn] at hn'
  cases hn'
  rfl

theorem WorldOk.mem_requests (h : WorldOk w τ) :
    req ∈ (w.clients c).requests ↔ .client c (.started req) ∈ τ := by
  rw [← mem_clientTrace]
  exact ((h.client c).requests.started req).symm

/-- A request that an instance received was sent by the client it names. -/
theorem WorldOk.of_received (h : WorldOk w τ) (hr : .server n (.received k req) ∈ τ) :
    w.Owns req.hdr.cltNonce k ∧ .client req.hdr.cltNonce (.sent k req) ∈ τ ∧
      req ∈ (w.clients req.hdr.cltNonce).requests := by
  obtain ⟨c, hown, hsent⟩ := h.reqs k req (h.received n k req hr)
  have hreq := (h.client c).requests.sent k req (mem_clientTrace.mpr hsent)
  have hc : req.hdr.cltNonce = c := ((h.client c).requests.nonce req hreq).trans (h.nonce c)
  rw [hc]
  exact ⟨hown, hsent, hreq⟩

theorem WorldOk.of_executed (h : WorldOk w τ) (he : .server n (.executed req) ∈ τ) :
    req.Accepted n ∧ req ∈ (w.clients req.hdr.cltNonce).requests := by
  obtain ⟨hacc, k, hr⟩ := (h.events n).executed req (mem_serverTrace.mpr he)
  exact ⟨hacc, (h.of_received (mem_serverTrace.mp hr)).2.2⟩

theorem WorldOk.of_produced (h : WorldOk w τ) {ret : Int32} {body : Bytes}
    (hp : .server n (.produced req ret body) ∈ τ) :
    .server n (.executed req) ∈ τ ∧ (req.hdr.proc = bindProc → ret = 0 ∧ body = intBody n) := by
  have := (h.events n).produced req ret body (mem_serverTrace.mpr hp)
  rwa [mem_serverTrace] at this

/-- The key tells the request. -/
theorem WorldOk.request_unique (h : WorldOk w τ) (hr : req ∈ (w.clients req.hdr.cltNonce).requests)
    (hr' : req' ∈ (w.clients req'.hdr.cltNonce).requests) (hk : req.key = req'.key) :
    req = req' := by
  simp only [Request.key, Prod.mk.injEq] at hk
  rw [← hk.1] at hr'
  exact (h.client _).requests.unique hr hr' hk.2

/-- A reply that reaches a client answers a request of that client. -/
theorem WorldOk.of_reply (h : WorldOk w τ) {b : Reply} (hb : (k, b) ∈ w.reps) (hown : w.Owns c k) :
    ∃ req, (∃ k', .client c (.sent k' req) ∈ τ) ∧ req ∈ (w.clients c).requests ∧
      b.hdr.xid = req.hdr.xid ∧ (¬ b.hdr.ret < 0 → Produced τ req b.hdr.ret b.body) := by
  obtain ⟨n, hs⟩ := h.reps k b hb
  obtain ⟨req, ⟨k', hr⟩, ⟨req', hr', hclt⟩, hx, hans⟩ := (h.events n).sent k b (mem_serverTrace.mpr hs)
  obtain ⟨-, hsent, hreq⟩ := h.of_received (mem_serverTrace.mp hr)
  obtain ⟨hown', -, -⟩ := h.of_received (mem_serverTrace.mp hr')
  -- the instance answers on a connection of the client that the request names
  obtain rfl : c = req.hdr.cltNonce := hown.unique (hclt ▸ hown')
  refine ⟨req, ⟨k', hsent⟩, hreq, hx, fun hret => ?_⟩
  obtain ⟨req'', hkey, hprod⟩ := hans.resolve_left hret
  have hprod := mem_serverTrace.mp hprod
  have hexec := (h.of_produced hprod).1
  rw [h.request_unique (h.of_executed hexec).2 hreq hkey] at hprod
  exact ⟨n, hprod⟩

/-- What a bind returns is the nonce of an instance. -/
theorem WorldOk.bind_nonce (h : WorldOk w τ) {un : Bytes} {r : UInt32} (hp : Produced τ req 0 un)
    (hbind : req.hdr.proc = bindProc) (hr : readInt un = some r) : r ≠ 0 := by
  obtain ⟨n, hp⟩ := hp
  rw [((h.of_produced hp).2 hbind).2, readInt_intBody, Option.some.injEq] at hr
  subst hr
  rintro rfl
  have := mem_serverTrace.mpr hp
  rw [h.never 0 h.zero] at this
  cases this

/-! ## Steps -/

theorem Produced.append {ret : Int32} {un : Bytes} (h : Produced τ req ret un) :
    Produced (τ ++ es) req ret un :=
  h.imp fun n hn => by simp [hn]

theorem WorldOk.stepClient {a : ClientAction} (h : WorldOk w τ)
    (hs : w.stepClient c a = some (w', es)) (hecho : a.Echoes (clientTrace c τ))
    (hconn : ∀ i dead k, a = .getRefconn i dead (some k) → w.Owns c k)
    (hrep : ∀ rep, a = .gotPdu rep → ¬ rep.hdr.ret < 0 → ∀ req ∈ (w.clients c).requests,
      req.hdr.xid = rep.hdr.xid → Produced τ req rep.hdr.ret rep.body)
    (hfew : starts (clientTrace c (τ ++ es)) < 2 ^ 31) : WorldOk w' (τ ++ es) := by
  simp only [World.stepClient] at hs
  split at hs
  · cases hs
  rename_i hzero
  obtain ⟨⟨s', ces⟩, hstep, hs⟩ := Option.map_eq_some_iff.mp hs
  cases hs
  have hstep := Rpcc.step_inv hstep
  obtain ⟨hj, hret, hsent⟩ := (h.justified c).step (h.client c) hstep hconn hrep
    fun req un r => h.bind_nonce
  have hok := (h.client c).step hstep hecho (by simpa using hfew)
  constructor
  case nonce =>
    intro c'
    by_cases hc : c' = c
    · subst hc
      simp [hstep.cltNonce, h.nonce]
    · simp [hc, h.nonce]
  case silent => simpa [hzero] using h.silent
  case client =>
    intro c'
    by_cases hc : c' = c
    · subst hc
      simpa using hok
    · simpa [hc, Ne.symm hc] using h.client c'
  case justified =>
    intro c'
    by_cases hc : c' = c
    · subst hc
      simp only [update_self]
      exact hj.mono (fun k hk => hk) fun req ret un hp => hp.append
    · simp only [update_of_ne hc]
      exact (h.justified c').mono (fun k hk => hk) fun req ret un hp => hp.append
  case returned =>
    intro c' req ret un he
    rcases List.mem_append.mp he with he | he
    · obtain ⟨h₁, h₂⟩ := h.returned c' req ret un he
      exact ⟨by simp [h₁], fun hr => (h₂ hr).append⟩
    · obtain ⟨e, he, hce⟩ := List.mem_map.mp he
      cases hce
      obtain ⟨h₁, h₂⟩ := hret req ret un he
      exact ⟨by simp [h.mem_requests.mp h₁], fun hr => (h₂ hr).append⟩
  case server => simpa using h.server
  case events => simpa using h.events
  case never => simpa using h.never
  case zero => exact h.zero
  case reqs =>
    intro k req hr
    rcases List.mem_append.mp hr with hr | hr
    · obtain ⟨c', hown, hs⟩ := h.reqs k req hr
      exact ⟨c', hown, by simp [hs]⟩
    · -- what goes into the network is what the client has just sent
      obtain ⟨e, he, hreq⟩ := List.mem_filterMap.mp hr
      cases e with
      | sent k' req' =>
          cases hreq
          exact ⟨c, hsent k req he, by simp [he]⟩
      | _ => cases hreq
  case received =>
    intro n k req hr
    have := h.received n k req (by simpa using hr)
    simp [this]
  case reps =>
    intro k b hb
    obtain ⟨n, hn⟩ := h.reps k b hb
    exact ⟨n, by simp [hn]⟩

theorem WorldOk.stepServer {a : ServerAction} (h : WorldOk w τ)
    (hs : w.stepServer n a = some (w', es))
    (hreq : ∀ k req, a = .gotPdu k req → (k, req) ∈ w.reqs) : WorldOk w' (τ ++ es) := by
  simp only [World.stepServer] at hs
  split at hs
  · rename_i s hn
    obtain ⟨⟨o, ses⟩, hstep, hs⟩ := Option.map_eq_some_iff.mp hs
    cases hs
    have hstep := Rpcs.step_inv hstep
    obtain ⟨hnonce, hok⟩ := h.server n s hn
    have hev : EventsOk n (serverTrace n τ ++ ses) := by
      cases o with
      | none => simpa [hstep.aborted] using h.events n
      | some s' =>
          have := (hok.step hstep).events
          rwa [hstep.nonce, hnonce] at this
    have hne : n ≠ 0 := by
      rintro rfl
      rw [h.zero] at hn
      cases hn
    constructor
    case nonce => exact h.nonce
    case silent => simpa using h.silent
    case client => simpa using h.client
    case justified =>
      intro c
      exact (h.justified c).mono (fun k hk => hk) fun req ret un hp => hp.append
    case returned =>
      intro c req ret un he
      obtain ⟨h₁, h₂⟩ := h.returned c req ret un (by simpa using he)
      exact ⟨by simp [h₁], fun hr => (h₂ hr).append⟩
    case server =>
      intro m s' hm
      by_cases hmn : m = n
      · subst hmn
        cases o with
        | none => simp at hm
        | some s'' =>
            simp only [update_self, Option.elim_some, Instance.up.injEq] at hm
            subst hm
            exact ⟨hstep.nonce.trans hnonce, by simpa using hok.step hstep⟩
      · simpa [Ne.symm hmn] using h.server m s' (by simpa [hmn] using hm)
    case events =>
      intro m
      by_cases hmn : m = n
      · subst hmn
        simpa using hev
      · simpa [Ne.symm hmn] using h.events m
    case never =>
      intro m hm
      by_cases hmn : m = n
      · subst hmn
        cases o <;> simp at hm
      · simpa [Ne.symm hmn] using h.never m (by simpa [hmn] using hm)
    case zero => simpa [Ne.symm hne] using h.zero
    case reqs =>
      intro k req hr
      obtain ⟨c, hown, hs⟩ := h.reqs k req hr
      exact ⟨c, hown, by simp [hs]⟩
    case received =>
      intro m k req hr
      rcases List.mem_append.mp hr with hr | hr
      · exact h.received m k req hr
      · obtain ⟨e, he, hce⟩ := List.mem_map.mp hr
        cases hce
        exact hreq k req (hstep.received he)
    case reps =>
      intro k b hb
      rcases List.mem_append.mp hb with hb | hb
      · obtain ⟨m, hm⟩ := h.reps k b hb
        exact ⟨m, by simp [hm]⟩
      · obtain ⟨e, he, hreq⟩ := List.mem_filterMap.mp hb
        cases e with
        | sent k' b' =>
            cases hreq
            exact ⟨n, by simp [he]⟩
        | _ => cases hreq
  · cases hs

/-- A new connection. -/
theorem WorldOk.addConn (h : WorldOk w τ) (c n : UInt32) :
    WorldOk { w with conns := w.conns ++ [(c, n)] } τ := by
  have howns : ∀ c' k, w.Owns c' k → World.Owns { w with conns := w.conns ++ [(c, n)] } c' k := by
    rintro c' k ⟨m, hm⟩
    exact ⟨m, by rw [List.getElem?_append_left (List.getElem?_eq_some_iff.mp hm).1, hm]⟩
  refine { h with justified := fun c' => ?_, reqs := fun k req hr => ?_ }
  · exact (h.justified c').mono (howns c') fun _ _ _ hp => hp
  · obtain ⟨c', hown, hs⟩ := h.reqs k req hr
    exact ⟨c', howns c' k hown, hs⟩

theorem WorldOk.connect {i : Nat} {m : Option UInt32} (h : WorldOk w τ)
    (hs : w.connect c i m = some (w', es)) (hfew : starts (clientTrace c (τ ++ es)) < 2 ^ 31) :
    WorldOk w' (τ ++ es) := by
  simp only [World.connect] at hs
  split at hs
  · split at hs
    · split at hs
      · refine (h.addConn c _).stepClient hs trivial ?_ (by simp) hfew
        intro i dead k hk
        cases hk
        exact ⟨_, List.getElem?_concat_length⟩
      · cases hs
    · cases hs
  · exact h.stepClient hs trivial (by simp) (by simp) hfew

/-- An instance is replaced by another one. -/
theorem WorldOk.setInstance (h : WorldOk w τ) (hn : n ≠ 0) (i : Instance) (hi : i ≠ .never)
    (hserver : ∀ s, i = .up s → s.nonce = n ∧ ServerOk s (serverTrace n τ)) :
    WorldOk { w with servers := update w.servers n i } τ := by
  refine { h with server := fun m s hm => ?_, never := fun m hm => ?_, zero := ?_ }
  · by_cases hmn : m = n
    · subst hmn
      exact hserver s (by simpa using hm)
    · exact h.server m s (by simpa [hmn] using hm)
  · by_cases hmn : m = n
    · subst hmn
      exact absurd (by simpa using hm) hi
    · exact h.never m (by simpa [hmn] using hm)
  · simpa [Ne.symm hn] using h.zero

theorem WorldOk.boot (h : WorldOk w τ) (hnever : w.servers n = .never) (hn : n ≠ 0)
    (procs : List UInt32) :
    WorldOk { w with servers := update w.servers n (.up (.new n procs)) } τ := by
  apply h.setInstance hn (.up (.new n procs)) Instance.noConfusion
  rintro s ⟨⟩
  rw [h.never n hnever]
  exact ⟨rfl, serverOk_new n procs⟩

theorem WorldOk.crash {s : Rpcs} (h : WorldOk w τ) (hup : w.servers n = .up s) :
    WorldOk { w with servers := update w.servers n .gone } τ := by
  have hn : n ≠ 0 := by
    rintro rfl
    rw [h.zero] at hup
    cases hup
  exact h.setInstance hn .gone Instance.noConfusion nofun

/-- Every step of the whole keeps the invariant. -/
theorem WorldOk.next {a : WorldAction} (h : WorldOk w τ) (hs : w.next a = some (w', es))
    (hfew : ∀ c, starts (clientTrace c (τ ++ es)) < 2 ^ 31) : WorldOk w' (τ ++ es) := by
  cases a with
  | client c a =>
      simp only [World.next] at hs
      split at hs
      · cases hs
      · rename_i hnet
        refine h.stepClient hs ?_ ?_ ?_ (hfew c)
        · cases a with
          | gotPdu => simp [ClientAction.asksNetwork] at hnet
          | _ => trivial
        · rintro i dead k rfl
          simp [ClientAction.asksNetwork] at hnet
        · rintro rep rfl
          simp [ClientAction.asksNetwork] at hnet
  | connect c i n => exact h.connect hs (hfew c)
  | timeout c i last => exact h.stepClient hs trivial (by simp) (by simp) (hfew c)
  | deliverReply m =>
      obtain ⟨⟨k, b⟩, hb, hs⟩ := Option.bind_eq_some_iff.mp hs
      obtain ⟨⟨c, n⟩, hc, hs⟩ := Option.bind_eq_some_iff.mp hs
      obtain ⟨req, ⟨k', hsent⟩, hreq, hx, hprod⟩ := h.of_reply (List.mem_of_getElem? hb) ⟨n, hc⟩
      refine h.stepClient hs ⟨k', req, mem_clientTrace.mpr hsent, hx⟩ (by simp) ?_ (hfew c)
      rintro rep ⟨⟩ hret req' hreq' hx'
      rw [(h.client c).requests.unique hreq' hreq (hx'.trans hx)]
      exact hprod hret
  | server n a =>
      simp only [World.next] at hs
      split at hs
      · cases hs
      · rename_i hnet
        refine h.stepServer hs ?_
        rintro k req rfl
        simp [ServerAction.asksNetwork] at hnet
  | choose n j =>
      simp only [World.next] at hs
      split at hs
      · exact h.stepServer hs (by simp)
      · cases hs
  | deliverRequest m =>
      obtain ⟨⟨k, req⟩, hr, hs⟩ := Option.bind_eq_some_iff.mp hs
      obtain ⟨⟨c, n⟩, -, hs⟩ := Option.bind_eq_some_iff.mp hs
      refine h.stepServer hs ?_
      rintro _ _ ⟨⟩
      exact List.mem_of_getElem? hr
  | boot n procs =>
      simp only [World.next] at hs
      split at hs
      · rename_i hnever
        split at hs
        · cases hs
        · cases hs
          rw [List.append_nil]
          exact h.boot hnever ‹_› procs
      · cases hs
  | crash n =>
      simp only [World.next] at hs
      split at hs
      · cases hs
        rw [List.append_nil]
        exact h.crash ‹_›
      · cases hs
  | close k =>
      cases hs
      rw [List.append_nil]
      exact { h with }

/-- The invariant holds after every run in which no client makes too many calls. -/
theorem worldOk_run (h : rpcWorld.Run τ w) (hfew : ∀ c, starts (clientTrace c τ) < 2 ^ 31) :
    WorldOk w τ := by
  refine h.invariant (I := fun τ w => (∀ c, starts (clientTrace c τ) < 2 ^ 31) → WorldOk w τ)
    ?_ ?_ hfew
  · rintro w ⟨lossytest, rfl⟩ -
    exact worldOk_initial lossytest
  · intro τ w a w' es hi hn hfew
    refine (hi fun c => ?_).next hn hfew
    have := hfew c
    simp only [clientTrace_append, starts, List.countP_append] at this ⊢
    omega

end

/-! ## At most once -/

/-- The executions of the handler for call `k`, unless it is a bind. -/
def executions (k : Key) (τ : List WorldEvent) : List WorldEvent :=
  τ.filter fun
    | .server _ (.executed req) => req.key = k ∧ req.hdr.proc ≠ bindProc
    | _ => false

section
variable {w : World} {τ : List WorldEvent} {n n' : UInt32} {req req' : Request} {k : Key}

theorem mem_executions {e : WorldEvent} : e ∈ executions k τ ↔
    ∃ n req, e = .server n (.executed req) ∧ e ∈ τ ∧ req.key = k ∧ req.hdr.proc ≠ bindProc := by
  simp only [executions, List.mem_filter]
  constructor
  · rintro ⟨he, hp⟩
    split at hp
    · rename_i n req
      exact ⟨n, req, rfl, he, by simpa using hp⟩
    · cases hp
  · rintro ⟨n, req, rfl, he, hk, hp⟩
    exact ⟨he, by simp [hk, hp]⟩

/-- A call other than bind is executed by the instance its header names. -/
theorem WorldOk.executed_at (h : WorldOk w τ) (he : .server n (.executed req) ∈ τ)
    (hp : req.hdr.proc ≠ bindProc) : req.hdr.srvNonce = n := by
  obtain ⟨hacc, hreq⟩ := h.of_executed he
  obtain ⟨f, hf, rfl⟩ := List.mem_map.mp hreq
  exact hacc.resolve_left ((h.justified _).nonce f hf hp)

/-- All executions of a call are one event. -/
theorem WorldOk.execution_unique (h : WorldOk w τ) (he : .server n (.executed req) ∈ τ)
    (he' : .server n' (.executed req') ∈ τ) (hk : req.key = req'.key)
    (hp : req.hdr.proc ≠ bindProc) : n = n' ∧ req = req' := by
  obtain rfl := h.request_unique (h.of_executed he).2 (h.of_executed he').2 hk
  exact ⟨(h.executed_at he hp).symm.trans (h.executed_at he' hp), rfl⟩

theorem count_serverTrace (e : ServerEvent) (τ : List WorldEvent) :
    (serverTrace n τ).count e = τ.count (.server n e) := by
  induction τ with
  | nil => rfl
  | cons a τ ih =>
      cases a with
      | client c e' => simpa [serverTrace] using ih
      | server n' e' =>
          by_cases hn : n' = n
          · subst hn
            simpa [serverTrace, List.count_cons] using ih
          · simpa [serverTrace, hn] using ih

/-- The history of a call of a client. -/
theorem WorldOk.history_slot (h : WorldOk w τ) (he : .server n (.executed req) ∈ τ) (m : UInt32) :
    ∃ slot : Slot, history req.key (serverTrace m τ) = slot.history := by
  refine (h.events m).once req.key fun hzero => ?_
  have hs := h.mem_requests.mp (h.of_executed he).2
  have := mem_clientTrace.mpr hs
  rw [show req.hdr.cltNonce = 0 from hzero, h.silent] at this
  cases this

theorem WorldOk.count_executed (h : WorldOk w τ) (he : .server n (.executed req) ∈ τ) :
    τ.count (.server n (.executed req)) ≤ 1 := by
  obtain ⟨slot, hs⟩ := h.history_slot he n
  have hc : (history req.key (serverTrace n τ)).count (.executed req) =
      (serverTrace n τ).count (.executed req) := List.count_filter (by simp [ServerEvent.key])
  rw [← count_serverTrace, ← hc, hs]
  cases slot <;> simp [List.count_cons] <;> split <;> simp

theorem WorldOk.executions_length (h : WorldOk w τ) (k : Key) : (executions k τ).length ≤ 1 := by
  cases hx : executions k τ with
  | nil => simp
  | cons e rest =>
      have hmem : ∀ e' ∈ executions k τ, ∃ n req, e' = .server n (.executed req) ∧ e' ∈ τ ∧
          req.key = k ∧ req.hdr.proc ≠ bindProc := fun e' => mem_executions.mp
      obtain ⟨n, req, rfl, he, hk, hp⟩ := hmem e (by simp [hx])
      -- all executions are one event, and that event happens once
      have hall : ∀ e' ∈ executions k τ, .server n (.executed req) = e' := by
        intro e' he'
        obtain ⟨n', req', rfl, he', hk', -⟩ := hmem e' he'
        obtain ⟨rfl, rfl⟩ := h.execution_unique he he' (hk.trans hk'.symm) hp
        rfl
      rw [← hx, ← List.count_eq_length.mpr hall]
      refine le_trans ?_ (h.count_executed he)
      exact List.filter_sublist.count_le _

/-- One execution has one result. -/
theorem WorldOk.produced_unique (h : WorldOk w τ) {ret ret' : Int32} {un un' : Bytes}
    (hp : .server n (.produced req ret un) ∈ τ) (hp' : .server n (.produced req ret' un') ∈ τ) :
    ret = ret' ∧ un = un' := by
  obtain ⟨slot, hs⟩ := h.history_slot (h.of_produced hp).1 n
  have hmem : ∀ ret un, .server n (.produced req ret un) ∈ τ →
      .produced req ret un ∈ slot.history := by
    intro ret un hp
    rw [← hs]
    exact List.mem_filter.mpr ⟨mem_serverTrace.mpr hp, by simp [ServerEvent.key]⟩
  have h₁ := hmem ret un hp
  have h₂ := hmem ret' un' hp'
  cases slot <;> simp_all

/-- At-most-once and correct-reply semantics. In every run in which each client makes fewer than
`2 ^ 31` calls: the handler of a call other than bind is executed at most once over all instances;
and when a call returns a non-negative value, its handler was executed exactly once, on the request
of that call, and the value and the result it returns are those of this execution. -/
theorem at_most_once (h : rpcWorld.Run τ w) (hfew : ∀ c, starts (clientTrace c τ) < 2 ^ 31) :
    (∀ k, (executions k τ).length ≤ 1) ∧
    ∀ c req ret un, .client c (.returned req ret un) ∈ τ → req.hdr.proc ≠ bindProc → 0 ≤ ret →
      .client c (.started req) ∈ τ ∧ ∃ n, executions req.key τ = [.server n (.executed req)] ∧
        .server n (.produced req ret un) ∈ τ ∧
        ∀ n' req' ret' un', .server n' (.produced req' ret' un') ∈ τ → req'.key = req.key →
          n' = n ∧ req' = req ∧ ret' = ret ∧ un' = un := by
  have hok := worldOk_run h hfew
  refine ⟨hok.executions_length, fun c req ret un hr hp hret => ?_⟩
  obtain ⟨hstart, hprod⟩ := hok.returned c req ret un hr
  obtain ⟨n, hn⟩ := hprod (Int32.not_lt.mpr hret)
  have he := (hok.of_produced hn).1
  refine ⟨hstart, n, ?_, hn, fun n' req' ret' un' hp' hk => ?_⟩
  · have hmem := mem_executions.mpr ⟨n, req, rfl, he, rfl, hp⟩
    have hlen := hok.executions_length req.key
    obtain ⟨e, hx⟩ := List.length_eq_one_iff.mp
      (le_antisymm hlen (List.length_pos_of_mem hmem))
    rw [hx, List.mem_singleton] at hmem
    rw [hx, hmem]
  · obtain ⟨rfl, rfl⟩ := hok.execution_unique he (hok.of_produced hp').1 hk.symm hp
    obtain ⟨rfl, rfl⟩ := hok.produced_unique hn hp'
    exact ⟨rfl, rfl, rfl, rfl⟩

end

theorem starts_le_length (c : UInt32) (τ : List WorldEvent) :
    starts (clientTrace c τ) ≤ τ.length :=
  List.countP_le_length.trans (List.length_filterMap_le _ _)

/-- Client 9 binds to instance 5 and calls procedure 7; the request is delivered twice. -/
theorem at_most_once_duplicate : ∃ τ w, rpcWorld.Run τ w ∧ τ.length < 2 ^ 31 ∧
    .client 9 (.returned ⟨⟨2, 7, 9, 5, 1⟩, [1]⟩ 3 [42]) ∈ τ ∧
    ∃ n, executions (9, 2) τ = [.server n (.executed ⟨⟨2, 7, 9, 5, 1⟩, [1]⟩)] := by
  obtain ⟨τ, w, hrun, hlen, hret⟩ := System.exists_run (S := rpcWorld) (s := .initial fun _ => false)
    (p := fun τ _ => τ.length < 2 ^ 31 ∧
      .client 9 (.returned ⟨⟨2, 7, 9, 5, 1⟩, [1]⟩ 3 [42]) ∈ τ)
    [.boot 5 [7], .client 9 (.call1 bindProc [0, 0, 0, 0]), .connect 9 0 (some 5),
      .client 9 (.send 0 false), .deliverRequest 0, .server 5 (.header 0),
      .server 5 (.saveConn 0 false), .server 5 (.check 0), .server 5 (.call 0),
      .server 5 (.ret 0 0 (intBody 5)), .server 5 (.addReply 0), .choose 5 0, .server 5 (.send 0),
      .deliverReply 0, .client 9 (.wake 0), .client 9 (.leave 0), .client 9 (.finish 0),
      .client 9 (.bound 0), .client 9 (.call1 7 [1]), .connect 9 1 none, .client 9 (.send 1 false),
      .deliverRequest 1, .deliverRequest 1, .server 5 (.header 1), .server 5 (.saveConn 1 false),
      .server 5 (.check 1), .server 5 (.call 1), .server 5 (.ret 1 3 [42]),
      .server 5 (.header 2), .server 5 (.saveConn 2 false), .server 5 (.check 2),
      .server 5 (.addReply 1), .choose 5 1, .server 5 (.send 1), .deliverReply 1,
      .client 9 (.wake 1), .client 9 (.leave 1), .client 9 (.finish 1)]
    ⟨_, rfl⟩ (by decide +kernel)
  have hfew : ∀ c, starts (clientTrace c τ) < 2 ^ 31 := fun c =>
    (starts_le_length c τ).trans_lt hlen
  obtain ⟨-, n, hn, -⟩ := (at_most_once hrun hfew).2 9 _ 3 [42] hret (by decide) (by decide)
  exact ⟨τ, w, hrun, hlen, hret, n, hn⟩

end Yfs.Rpc
