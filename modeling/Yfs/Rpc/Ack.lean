import Mathlib.Order.Bounds.Defs
import Yfs.Lib.System
import Yfs.Rpc.Client

/-!
# What a client acknowledges

`ClientOk s τ` is the invariant of one client that has made fewer than `2 ^ 31` calls: its frames
are the calls it started, numbered by their xids; `calls_` holds those that have not ended; the
window is exact for the xids reported so far; every header acknowledges only reported xids; and a
call that still waits was not reported. It holds at the start (`clientOk_new`) and every step keeps
it (`ClientOk.step`), as long as replies echo xids of requests the client has sent.
-/

namespace Yfs.Rpc

open Yfs.Lib

def ClientEvent.isStarted : ClientEvent → Bool
  | started _ => true
  | _ => false

/-- The number of calls that were given an xid. -/
def starts (τ : List ClientEvent) : Nat := τ.countP (·.isStarted)

/-- Still waiting for its reply. -/
def Call.waiting (f : Call) : Bool := f.pc.pending && !f.done

/-- The requests of all calls so far, in the order of their xids. -/
def Rpcc.requests (s : Rpcc) : List Request := s.frames.map (·.req)

/-- The requests `reqs` are those of a client with the given nonce and next xid. -/
structure RequestsOk (cltNonce xid : UInt32) (reqs : List Request) (τ : List ClientEvent) :
    Prop where
  few : starts τ < 2 ^ 31
  count : reqs.length = starts τ
  next : xid.toNat = starts τ + 1
  number : ∀ i req, reqs[i]? = some req → req.hdr.xid.toNat = i + 1
  nonce : ∀ req ∈ reqs, req.hdr.cltNonce = cltNonce
  started : ∀ req, .started req ∈ τ ↔ req ∈ reqs
  sent : ∀ c req, .sent c req ∈ τ → req ∈ reqs
  reported : ∀ x, .reported x ∈ τ → 1 ≤ x ∧ x < xid
  ack : ∀ req ∈ reqs, req.hdr.xidRep < req.hdr.xid ∧
    ∀ x, 1 ≤ x → x ≤ req.hdr.xidRep → .reported x ∈ τ

structure ClientOk (s : Rpcc) (τ : List ClientEvent) : Prop where
  requests : RequestsOk s.cltNonce s.xid s.requests τ
  dup : ∀ req ∈ s.dupReq, req ∈ s.requests
  calls : ∀ x i, (x, i) ∈ s.calls ↔
    ∃ f, s.frames[i]? = some f ∧ f.req.hdr.xid = x ∧ f.pc.pending = true
  window : Exact s.xidRepWindow fun x => .reported x ∈ τ
  waiting : ∀ f ∈ s.frames, f.waiting = true → .reported f.req.hdr.xid ∉ τ

theorem clientOk_new (cltNonce : UInt32) (lossytest : Bool) :
    ClientOk (.new cltNonce lossytest) [] where
  requests := by constructor <;> simp [Rpcc.new, Rpcc.requests, starts]
  dup := by simp [Rpcc.new]
  calls := by simp [Rpcc.new]
  window := by simpa [Rpcc.new] using exact_initial
  waiting := by simp [Rpcc.new]

section
variable {cltNonce xid : UInt32} {reqs : List Request} {s s' : Rpcc} {τ es : List ClientEvent}
  {i : Nat} {f f' : Call}

/-! ## Requests -/

/-- The xid tells the request. -/
theorem RequestsOk.unique (h : RequestsOk cltNonce xid reqs τ) {req req' : Request}
    (hr : req ∈ reqs) (hr' : req' ∈ reqs) (hx : req.hdr.xid = req'.hdr.xid) : req = req' := by
  obtain ⟨i, hi⟩ := List.getElem?_of_mem hr
  obtain ⟨j, hj⟩ := List.getElem?_of_mem hr'
  have h₁ := h.number i req hi
  have h₂ := h.number j req' hj
  have hij : i = j := by
    rw [hx] at h₁
    omega
  rw [hij, hj] at hi
  exact (Option.some.inj hi).symm

/-- The xids of requests are those below the next one. -/
theorem RequestsOk.mem_xid (h : RequestsOk cltNonce xid reqs τ) {req : Request}
    (hr : req ∈ reqs) : 1 ≤ req.hdr.xid ∧ req.hdr.xid < xid ∧ Small req.hdr.xid := by
  obtain ⟨i, hi⟩ := List.getElem?_of_mem hr
  have hn := h.number i req hi
  have hlen := (List.getElem?_eq_some_iff.mp hi).1
  have := h.few
  have := h.count
  have := h.next
  simp only [UInt32.le_iff_toNat_le, UInt32.lt_iff_toNat_lt, UInt32.reduceToNat, Small]
  omega

/-- An event that starts no call and reports no xid. -/
theorem RequestsOk.append (h : RequestsOk cltNonce xid reqs τ)
    (hstart : ∀ req, .started req ∉ es) (hreport : ∀ x, .reported x ∉ es)
    (hsent : ∀ c req, .sent c req ∈ es → req ∈ reqs) :
    RequestsOk cltNonce xid reqs (τ ++ es) := by
  have hcount : starts (τ ++ es) = starts τ := by
    simp only [starts, List.countP_append, Nat.add_eq_left, List.countP_eq_zero]
    intro e he
    cases e with
    | started req => exact absurd he (hstart req)
    | _ => simp [ClientEvent.isStarted]
  refine ⟨hcount ▸ h.few, hcount ▸ h.count, hcount ▸ h.next, h.number, h.nonce, ?_, ?_, ?_, ?_⟩
  · simp [hstart, h.started]
  · intro c req hc
    rcases List.mem_append.mp hc with hc | hc
    · exact h.sent c req hc
    · exact hsent c req hc
  · simpa [hreport] using h.reported
  · simpa [hreport] using h.ack

theorem RequestsOk.report (h : RequestsOk cltNonce xid reqs τ) {x : UInt32} (h₁ : 1 ≤ x)
    (h₂ : x < xid) : RequestsOk cltNonce xid reqs (τ ++ [.reported x]) := by
  have hcount : starts (τ ++ [.reported x]) = starts τ := by
    simp [starts, ClientEvent.isStarted]
  refine ⟨hcount ▸ h.few, hcount ▸ h.count, hcount ▸ h.next, h.number, h.nonce, ?_, ?_, ?_, ?_⟩
  · simpa using h.started
  · simpa using h.sent
  · intro y hy
    rcases List.mem_append.mp hy with hy | hy
    · exact h.reported y hy
    · simp_all
  · intro req hr
    exact ⟨(h.ack req hr).1, fun y hy hy' => by simp [(h.ack req hr).2 y hy hy']⟩

theorem RequestsOk.start (h : RequestsOk cltNonce xid reqs τ) {req : Request}
    (hxid : req.hdr.xid = xid) (hnonce : req.hdr.cltNonce = cltNonce)
    (hlt : req.hdr.xidRep < xid) (hack : ∀ x, 1 ≤ x → x ≤ req.hdr.xidRep → .reported x ∈ τ)
    (hfew : starts (τ ++ [.started req]) < 2 ^ 31) :
    RequestsOk cltNonce (xid + 1) (reqs ++ [req]) (τ ++ [.started req]) := by
  have hcount : starts (τ ++ [.started req]) = starts τ + 1 := by
    simp [starts, ClientEvent.isStarted]
  have hx := h.next
  have hsucc : (xid + 1).toNat = xid.toNat + 1 := by
    have := h.few
    simp only [UInt32.toNat_add, UInt32.reduceToNat]
    omega
  have hlen := h.count
  refine ⟨hfew, by simp [hcount, hlen], by omega, ?_, ?_, ?_, ?_, ?_, ?_⟩
  · intro i r hi
    rcases lt_trichotomy i reqs.length with hil | rfl | hil
    · rw [List.getElem?_append_left hil] at hi
      exact h.number i r hi
    · simp only [List.getElem?_concat_length, Option.some.injEq] at hi
      subst hi
      rw [hxid, hx, hlen]
    · rw [List.getElem?_eq_none (by simp; omega)] at hi
      cases hi
  · intro r hr
    rcases List.mem_append.mp hr with hr | hr
    · exact h.nonce r hr
    · simp_all
  · simp [h.started]
  · intro c r hr
    simp only [List.mem_append, List.mem_singleton, reduceCtorEq, or_false] at hr
    simp [h.sent c r hr]
  · intro x hxr
    have := h.reported x (by simpa using hxr)
    refine ⟨this.1, ?_⟩
    have := this.2
    simp only [UInt32.lt_iff_toNat_lt] at this ⊢
    omega
  · intro r hr
    rcases List.mem_append.mp hr with hr | hr
    · exact ⟨(h.ack r hr).1, fun x h₁ h₂ => by simp [(h.ack r hr).2 x h₁ h₂]⟩
    · simp only [List.mem_singleton] at hr
      subst hr
      exact ⟨hxid ▸ hlt, fun x h₁ h₂ => by simp [hack x h₁ h₂]⟩

/-! ## Frames -/

theorem setFrame_getElem? (s : Rpcc) (hf : s.frames[i]? = some f) (j : Nat) :
    (s.setFrame i f').frames[j]? = if j = i then some f' else s.frames[j]? := by
  have hlt := (List.getElem?_eq_some_iff.mp hf).1
  simp only [Rpcc.setFrame, List.getElem?_set]
  grind

theorem requests_setFrame (hf : s.frames[i]? = some f) (hreq : f'.req = f.req) :
    (s.setFrame i f').requests = s.requests := by
  apply List.ext_getElem?
  intro j
  simp only [Rpcc.requests, List.getElem?_map, setFrame_getElem? s hf]
  split
  · simp [*]
  · rfl

theorem mem_setFrame {g : Call} (hg : g ∈ (s.setFrame i f').frames) : g ∈ s.frames ∨ g = f' :=
  List.mem_or_eq_of_mem_set hg

/-- A step of a frame within or after its stay in `calls_`. -/
theorem ClientOk.setFrame (h : ClientOk s τ) (hf : s.frames[i]? = some f) (hreq : f'.req = f.req)
    (hpending : f'.pc.pending = f.pc.pending) (hdone : f.done = true → f'.done = true) :
    ClientOk (s.setFrame i f') τ where
  requests := (requests_setFrame hf hreq).symm ▸ h.requests
  dup := (requests_setFrame hf hreq).symm ▸ h.dup
  calls := by
    intro x j
    rw [setFrame_getElem? s hf]
    refine (h.calls x j).trans ?_
    split
    · simp_all
    · rfl
  window := h.window
  waiting := by
    intro g hg hw
    rcases mem_setFrame hg with hg | rfl
    · exact h.waiting g hg hw
    · rw [hreq]
      refine h.waiting f (List.mem_of_getElem? hf) ?_
      simp_all [Call.waiting]

/-- An event that starts no call and reports no xid. -/
theorem ClientOk.append (h : ClientOk s τ)
    (hes : ∀ e ∈ es, (∃ c, ∃ req ∈ s.requests, e = .sent c req) ∨
      (∃ req ret un, e = .returned req ret un) ∨ ∃ ret, e = .refused ret) :
    ClientOk s (τ ++ es) where
  requests := h.requests.append (fun req he => by simpa using hes _ he)
    (fun x he => by simpa using hes _ he) (fun c req he => by simpa using hes _ he)
  dup := h.dup
  calls := h.calls
  window := by
    have : ∀ x, .reported x ∉ es := fun x he => by simpa using hes _ he
    simpa [this] using h.window
  waiting := by
    have : ∀ x, .reported x ∉ es := fun x he => by simpa using hes _ he
    simpa [this] using h.waiting

/-- `update_xid_rep` for the xid of a request whose call does not wait. -/
theorem ClientOk.report (h : ClientOk s τ) {req : Request} (hr : req ∈ s.requests)
    (hwait : ∀ f ∈ s.frames, f.waiting = true → f.req.hdr.xid ≠ req.hdr.xid) :
    ClientOk (s.updateXidRep req.hdr.xid) (τ ++ [.reported req.hdr.xid]) where
  requests := by
    obtain ⟨h₁, h₂, -⟩ := h.requests.mem_xid hr
    exact h.requests.report h₁ h₂
  dup := h.dup
  calls := h.calls
  window := by
    obtain ⟨h₁, -, h₃⟩ := h.requests.mem_xid hr
    simpa [Rpcc.updateXidRep] using h.window.updateXidRep h₃ h₁
  waiting := by
    intro f hf hw
    have := h.waiting f hf hw
    have := hwait f hf hw
    simp_all

theorem frame_mem (hf : s.frames[i]? = some f) : f.req ∈ s.requests :=
  List.mem_map_of_mem (List.mem_of_getElem? hf)

/-- Frames are told apart by their xids. -/
theorem ClientOk.index_unique (h : ClientOk s τ) {j : Nat} (hf : s.frames[i]? = some f)
    (hf' : s.frames[j]? = some f') (hx : f.req.hdr.xid = f'.req.hdr.xid) : i = j := by
  have h₁ := h.requests.number i f.req (by simp [Rpcc.requests, hf])
  have h₂ := h.requests.number j f'.req (by simp [Rpcc.requests, hf'])
  rw [hx] at h₁
  omega

/-- The end of a call. -/
theorem ClientOk.leave (h : ClientOk s τ) (hf : s.frames[i]? = some f) (hpc : f.pc = .leave) :
    ClientOk (s.leave i f) (τ ++ [.reported f.req.hdr.xid]) := by
  have hreq : (s.setFrame i { f with pc := .finish }).requests = s.requests :=
    requests_setFrame hf rfl
  have herased : ClientOk ({ s with calls := s.calls.filter (·.1 ≠ f.req.hdr.xid) }.setFrame i
      { f with pc := .finish }) τ := by
    refine ⟨hreq.symm ▸ h.requests, hreq.symm ▸ h.dup, fun x j => ?_, h.window, fun g hg hw => ?_⟩
    · change (x, j) ∈ s.calls.filter _ ↔ ∃ g, (s.setFrame i _).frames[j]? = some g ∧ _
      rw [setFrame_getElem? s hf, List.mem_filter, h.calls]
      by_cases hj : j = i
      · subst hj
        simp_all [CallPc.pending]
      · simp only [hj, if_false, ne_eq, decide_not, Bool.not_eq_eq_eq_not, Bool.not_true,
          decide_eq_false_iff_not, and_iff_left_iff_imp]
        rintro ⟨g, hg, rfl, -⟩ hx
        exact hj (h.index_unique hg hf hx)
    · rcases mem_setFrame hg with hg | rfl
      · exact h.waiting g hg hw
      · simp [Call.waiting, CallPc.pending] at hw
  have hmem : f.req ∈ (s.setFrame i { f with pc := .finish }).requests := hreq ▸ frame_mem hf
  refine herased.report hmem fun g hg hw hx => ?_
  obtain ⟨j, hj⟩ := List.getElem?_of_mem hg
  change (s.setFrame i _).frames[j]? = some g at hj
  rw [setFrame_getElem? s hf] at hj
  split at hj
  · cases hj
    simp [Call.waiting, CallPc.pending] at hw
  · exact ‹¬ j = i› (h.index_unique hj hf hx)

/-- The caller that `got_pdu` finds. -/
theorem ClientOk.lookup (h : ClientOk s τ) {x : UInt32} {j : Nat}
    (hl : s.calls.lookup x = some j) :
    ∃ g, s.frames[j]? = some g ∧ g.req.hdr.xid = x ∧ g.pc.pending = true := by
  obtain ⟨l₁, l₂, hl, -⟩ := List.lookup_eq_some_iff.mp hl
  exact (h.calls x j).mp (by simp [hl])

/-- A waiting call is found. -/
theorem ClientOk.lookup_waiting (h : ClientOk s τ) (hf : s.frames[i]? = some f)
    (hw : f.waiting = true) : s.calls.lookup f.req.hdr.xid = some i := by
  have hp : f.pc.pending = true := by
    simp only [Call.waiting, Bool.and_eq_true] at hw
    exact hw.1
  cases hl : s.calls.lookup f.req.hdr.xid with
  | none =>
      have := List.lookup_eq_none_iff.mp hl _ ((h.calls _ i).mpr ⟨f, hf, rfl, hp⟩)
      simp at this
  | some j =>
      obtain ⟨g, hg, hx, -⟩ := h.lookup hl
      rw [h.index_unique hf hg hx.symm]

/-- A reply to a request of this client. -/
theorem ClientOk.gotPdu (h : ClientOk s τ) {rep : Reply} {req : Request} (hr : req ∈ s.requests)
    (hx : rep.hdr.xid = req.hdr.xid) :
    ClientOk (s.gotPdu rep) (τ ++ [.reported rep.hdr.xid]) := by
  have hcalls : (s.updateXidRep rep.hdr.xid).calls = s.calls := rfl
  simp only [Rpcc.gotPdu, hcalls]
  cases hl : s.calls.lookup rep.hdr.xid with
  | none =>
      -- nobody waits for this xid any more
      rw [hx] at hl ⊢
      refine h.report hr fun g hg hw hgx => ?_
      obtain ⟨j, hj⟩ := List.getElem?_of_mem hg
      have := h.lookup_waiting hj hw
      rw [hgx, hl] at this
      cases this
  | some i =>
      obtain ⟨f, hf, hfx, hp⟩ := h.lookup hl
      have hf' : (s.updateXidRep rep.hdr.xid).frames[i]? = some f := hf
      simp only [hf']
      rw [hx] at hl ⊢
      -- no other call waits for this xid
      have hother : ∀ j g, s.frames[j]? = some g → g.waiting = true →
          g.req.hdr.xid = req.hdr.xid → j = i := by
        intro j g hj hw hgx
        have := h.lookup_waiting hj hw
        rw [hgx, hl] at this
        exact (Option.some.inj this).symm
      by_cases hd : f.done = true
      · -- the first reply wins
        rw [if_pos hd]
        refine h.report hr fun g hg hw hgx => ?_
        obtain ⟨j, hj⟩ := List.getElem?_of_mem hg
        rw [hother j g hj hw hgx, hf] at hj
        cases hj
        simp [Call.waiting, hd] at hw
      · rw [if_neg hd]
        let f' : Call := { f with un := rep.body, intret := rep.hdr.ret, done := true }
        have hs₁ : ClientOk (s.setFrame i f') τ := h.setFrame hf rfl rfl fun _ => rfl
        have hreq : (s.setFrame i f').requests = s.requests := requests_setFrame hf rfl
        have hr₁ : req ∈ (s.setFrame i f').requests := by
          rwa [hreq]
        refine hs₁.report hr₁ fun g hg hw hgx => ?_
        obtain ⟨j, hj⟩ := List.getElem?_of_mem hg
        rw [setFrame_getElem? s hf] at hj
        split at hj
        · cases hj
          simp [Call.waiting] at hw
        · exact ‹¬ j = i› (hother j g hj hw hgx)

theorem ClientOk.cancel (h : ClientOk s τ) : ClientOk s.cancel τ := by
  have hreq : s.cancel.requests = s.requests := by
    apply List.ext_getElem?
    intro j
    simp only [Rpcc.requests, Rpcc.cancel, List.getElem?_map, List.getElem?_mapIdx, Option.map_map]
    congr 1
    funext f
    simp only [Function.comp_apply]
    split <;> rfl
  refine ⟨hreq.symm ▸ h.requests, hreq.symm ▸ h.dup, fun x j => ?_, h.window, fun g hg hw => ?_⟩
  · refine (h.calls x j).trans ?_
    simp only [Rpcc.cancel, List.getElem?_mapIdx, Option.map_eq_some_iff, exists_exists_and_eq_and]
    refine exists_congr fun f => and_congr_right fun _ => ?_
    split <;> rfl
  · -- no call in `calls_` waits after `cancel`
    simp only [Rpcc.cancel, List.mem_mapIdx] at hg
    obtain ⟨j, hj, rfl⟩ := hg
    split at hw
    · simp [Call.waiting] at hw
    · split
      · contradiction
      · exact h.waiting _ (List.getElem_mem hj) hw

theorem ClientOk.call1 (h : ClientOk s τ) {proc : UInt32} {args : Bytes}
    (hfew : starts (τ ++ (s.call1 proc args).2) < 2 ^ 31) :
    ClientOk (s.call1 proc args).1 (τ ++ (s.call1 proc args).2) := by
  revert hfew
  simp only [Rpcc.call1]
  split
  · exact fun _ => h.append (by simp)
  split
  · exact fun _ => h.append (by simp)
  intro hfew
  -- the header's `xid_rep` is the front of the window, below the new xid
  obtain ⟨n, hn, hrun, hnext, hbeyond⟩ := h.window.front
  have hhead : s.xidRepWindow.headD 0 = n := by
    rw [List.headD_eq_head?_getD]
    simp_all
  have hzero : 0 < s.xid := by
    simp only [UInt32.lt_iff_toNat_lt, UInt32.reduceToNat, h.requests.next]
    omega
  have hlt : n < s.xid := by
    by_cases hn : 1 ≤ n
    · exact (h.requests.reported n (hrun n hn (UInt32.le_refl n))).2
    · have : n = 0 := by
        simp only [UInt32.le_iff_toNat_le, UInt32.reduceToNat] at hn
        exact UInt32.toNat_inj.mp (by simp; omega)
      rwa [this]
  simp only [hhead] at hfew ⊢
  refine ⟨?_, fun req hd => ?_, fun x j => ?_, ?_, fun g hg hw => ?_⟩
  · simp only [Rpcc.requests, List.map_append]
    exact h.requests.start rfl rfl hlt hrun hfew
  · simp only [Rpcc.requests, List.map_append, List.mem_append]
    exact .inl (h.dup req hd)
  · -- the new xid is not in the table
    have hold : (x, j) ∈ s.calls.filter (·.1 ≠ s.xid) ↔ (x, j) ∈ s.calls := by
      refine List.mem_filter.trans (and_iff_left_of_imp fun hc => ?_)
      obtain ⟨g, hg, rfl, -⟩ := (h.calls x j).mp hc
      have := (h.requests.mem_xid (frame_mem hg)).2.1
      grind
    rw [List.mem_cons, hold, h.calls]
    rcases lt_trichotomy j s.frames.length with hj | rfl | hj
    · rw [List.getElem?_append_left hj]
      simp [hj.ne]
    · rw [List.getElem?_concat_length, List.getElem?_eq_none le_rfl]
      simp [CallPc.pending, eq_comm (a := x)]
    · have hnone : ∀ f : Call, (s.frames ++ [f])[j]? = none := fun f =>
        List.getElem?_eq_none (by rw [List.length_append]; exact hj)
      simp only [hnone, List.getElem?_eq_none hj.le]
      simp [hj.ne']
  · simpa using h.window
  · have hnew : .reported s.xid ∉ τ := fun hr => by
      have := (h.requests.reported _ hr).2
      grind
    rcases List.mem_append.mp hg with hg | hg
    · simpa using h.waiting g hg hw
    · simp only [List.mem_singleton] at hg
      subst hg
      simpa using hnew

/-- What the surroundings of a client promise: a reply echoes the xid of a request that was
sent. -/
def ClientAction.Echoes (τ : List ClientEvent) : ClientAction → Prop
  | .gotPdu rep => ∃ c req, .sent c req ∈ τ ∧ rep.hdr.xid = req.hdr.xid
  | _ => True

/-- A transmission sends requests of this client only, and may forget one it kept. -/
theorem ClientOk.transmit (h : ClientOk s τ) (hf : f.req ∈ s.requests) :
    ClientOk (s.transmit f).1 (τ ++ (s.transmit f).2) ∧ (s.transmit f).1.frames = s.frames := by
  rcases s.transmit_cases f with ht | ⟨c, -, ht | ⟨req, hd, ht⟩⟩ <;> rw [ht]
  · exact ⟨by simpa using h, rfl⟩
  · exact ⟨h.append (by simpa using hf), rfl⟩
  · have h' : ClientOk { s with dupReq := none } τ := { h with dup := by simp }
    refine ⟨h'.append ?_, rfl⟩
    simp only [List.mem_cons, List.not_mem_nil, or_false]
    rintro e (rfl | rfl)
    · exact .inl ⟨c, req, h.dup req hd, rfl⟩
    · exact .inl ⟨c, f.req, hf, rfl⟩

theorem ClientOk.remember (h : ClientOk s τ) (hf : f.req ∈ s.requests) :
    ClientOk (s.remember f) τ := by
  unfold Rpcc.remember
  split
  · refine { h with dup := fun req hd => ?_ }
    cases hdup : s.dupReq with
    | none =>
        simp only [hdup, Option.none_or, Option.mem_def, Option.some.injEq] at hd
        exact hd ▸ hf
    | some r =>
        simp only [hdup, Option.some_or, Option.mem_def, Option.some.injEq] at hd
        exact h.dup req (by simp [hdup, hd])
  · exact h

/-- Every step keeps the invariant. -/
theorem ClientOk.step {a : ClientAction} (h : ClientOk s τ) (hs : s.Step a s' es)
    (hecho : a.Echoes τ) (hfew : starts (τ ++ es) < 2 ^ 31) : ClientOk s' (τ ++ es) := by
  cases hs with
  | call1 => exact h.call1 hfew
  | @getRefconn i f last dead conn hf hpc =>
      have h' : ClientOk { s with chan := if s.chan = none ∨ dead then conn else s.chan } τ :=
        { h with }
      rw [List.append_nil]
      exact h'.setFrame (f := f) hf rfl (by simp [hpc, CallPc.pending]) id
  | @send i f final last hf hpc =>
      obtain ⟨hok, hframes⟩ := h.transmit (frame_mem hf)
      refine hok.setFrame (f := f) (hframes ▸ hf) rfl ?_ id
      cases final <;> simp [hpc, CallPc.pending]
  | @wake i f final hf hpc =>
      rw [List.append_nil]
      exact h.setFrame (f := f) hf rfl (by simp [hpc, CallPc.pending]) id
  | @timeout i f final pc dead last hf hpc hpc' =>
      rw [List.append_nil]
      refine h.setFrame (f := f) hf rfl ?_ id
      rcases hpc' with rfl | rfl | rfl <;> simp [hpc, CallPc.pending]
  | leave hf hpc => exact h.leave hf hpc
  | @finish i f hf hpc =>
      have hframes : (s.remember f).frames = s.frames := by
        unfold Rpcc.remember
        split <;> rfl
      refine ClientOk.setFrame (f := f) ((h.remember (frame_mem hf)).append ?_) (hframes ▸ hf) rfl
        (by simp [hpc, CallPc.pending]) id
      simp
  | @bound i f r hf hpc =>
      have h' : ClientOk { s with bindDone := true, srvNonce := r } τ := { h with }
      rw [List.append_nil]
      exact h'.setFrame (f := f) hf rfl (by simp [hpc, CallPc.pending]) id
  | gotPdu =>
      obtain ⟨c, req, hsent, hx⟩ := hecho
      exact h.gotPdu (h.requests.sent c req hsent) hx
  | cancel => simpa using h.cancel
  | setReachable =>
      rw [List.append_nil]
      exact { h with }

end

/-! ## One client and its network -/

/-- The xids of the requests that were sent. -/
def sentXids (es : List ClientEvent) : List UInt32 :=
  es.filterMap fun
    | .sent _ req => some req.hdr.xid
    | _ => none

/-- A reply echoes one of the given xids. -/
def ClientAction.echoes (xids : List UInt32) : ClientAction → Bool
  | .gotPdu rep => xids.contains rep.hdr.xid
  | _ => true

/-- One client with the xids it has sent. Replies echo one of them, in any order and any number of
times; everything else is up to the client's surroundings. -/
def rpccSystem : System (Rpcc × List UInt32) ClientAction ClientEvent where
  init s := ∃ cltNonce lossytest, s = (.new cltNonce lossytest, [])
  next s a :=
    if a.echoes s.2 then (s.1.step a).map fun r => ((r.1, s.2 ++ sentXids r.2), r.2) else none

theorem mem_sentXids {es : List ClientEvent} {x : UInt32} :
    x ∈ sentXids es ↔ ∃ c req, .sent c req ∈ es ∧ x = req.hdr.xid := by
  simp only [sentXids, List.mem_filterMap]
  constructor
  · rintro ⟨e, he, hx⟩
    cases e with
    | sent c req => exact ⟨c, req, he, by simpa [eq_comm] using hx⟩
    | _ => simp at hx
  · rintro ⟨c, req, he, rfl⟩
    exact ⟨_, he, rfl⟩

theorem clientOk_run {τ : List ClientEvent} {s : Rpcc × List UInt32} (h : rpccSystem.Run τ s)
    (hfew : starts τ < 2 ^ 31) : ClientOk s.1 τ := by
  have := h.invariant (I := fun τ s => s.2 = sentXids τ ∧ (starts τ < 2 ^ 31 → ClientOk s.1 τ))
    ?_ ?_
  · exact this.2 hfew
  · rintro s ⟨cltNonce, lossytest, rfl⟩
    exact ⟨rfl, fun _ => clientOk_new cltNonce lossytest⟩
  · rintro τ ⟨s, xids⟩ a s' es ⟨rfl, hok⟩ hn
    simp only [rpccSystem] at hn
    split at hn
    · rename_i hecho
      obtain ⟨⟨s₁, es₁⟩, hs, hr⟩ := Option.map_eq_some_iff.mp hn
      cases hr
      refine ⟨by simp [sentXids], fun hfew => ?_⟩
      have hprev : starts τ < 2 ^ 31 := by
        simp only [starts, List.countP_append] at hfew ⊢
        omega
      refine (hok hprev).step (Rpcc.step_inv hs) ?_ hfew
      cases a with
      | gotPdu rep =>
          simp only [ClientAction.echoes, List.contains_iff_mem] at hecho
          exact mem_sentXids.mp hecho
      | _ => trivial
    · cases hn

/-- The acknowledgement of a client is exact and safe, in every run in which it makes fewer than
`2 ^ 31` calls. -/
theorem xid_rep_exact {τ : List ClientEvent} {s : Rpcc × List UInt32} (h : rpccSystem.Run τ s)
    (hfew : starts τ < 2 ^ 31) :
    s.1.xidRepWindow.Pairwise (· ≤ ·) ∧
    (∃ n, s.1.xidRepWindow.head? = some n ∧
      IsGreatest {m : ℕ | ∀ x : ℕ, 1 ≤ x → x ≤ m → .reported (UInt32.ofNat x) ∈ τ} n.toNat ∧
      ∀ x, n < x → (x ∈ s.1.xidRepWindow ↔ .reported x ∈ τ)) ∧
    ∀ c req, .sent c req ∈ τ → req.hdr.xidRep < req.hdr.xid ∧
      ∀ f ∈ s.1.frames, f.waiting = true → req.hdr.xidRep < f.req.hdr.xid := by
  have hok := clientOk_run h hfew
  refine ⟨hok.window.sorted, ?_, fun c req hsent => ?_⟩
  · obtain ⟨n, hn, hrun, hnext, hbeyond⟩ := hok.window.front
    refine ⟨n, hn, ⟨fun x h₁ h₂ => ?_, fun m hm => ?_⟩, hbeyond⟩
    · have hx : (UInt32.ofNat x).toNat = x := by
        have := n.toNat_lt
        simp only [UInt32.toNat_ofNat']
        omega
      exact hrun _ (by simpa [UInt32.le_iff_toNat_le, hx] using h₁)
        (by simpa [UInt32.le_iff_toNat_le, hx] using h₂)
    · -- a larger run of finished xids would cover the first one that is not
      by_contra hlt
      refine hnext ?_
      have := hm (n.toNat + 1) (by omega) (by omega)
      rwa [UInt32.ofNat_add, UInt32.ofNat_toNat] at this
  · have hreq := hok.requests.sent c req hsent
    refine ⟨(hok.requests.ack req hreq).1, fun f hf hw => ?_⟩
    have hpos := (hok.requests.mem_xid (List.mem_map_of_mem hf)).1
    by_contra hle
    exact hok.waiting f hf hw ((hok.requests.ack req hreq).2 _ hpos (UInt32.not_lt.mp hle))

/-- Two calls are made and the second one is answered first. -/
theorem xid_rep_exact_overtaken : ∃ τ s, rpccSystem.Run τ s ∧ starts τ < 2 ^ 31 ∧
    s.1.xidRepWindow = [0, 2] ∧ .reported 2 ∈ τ ∧ .reported 1 ∉ τ ∧
    ∀ c req, .sent c req ∈ τ → req.hdr.xidRep < req.hdr.xid := by
  obtain ⟨τ, s, hrun, hfew, hw, h₂, h₁⟩ := System.exists_run (S := rpccSystem)
    (s := (.new 9 false, []))
    (p := fun τ s => starts τ < 2 ^ 31 ∧ s.1.xidRepWindow = [0, 2] ∧ .reported 2 ∈ τ ∧
      .reported 1 ∉ τ)
    [.call1 bindProc [], .call1 bindProc [], .getRefconn 0 false (some 0), .send 0 false,
      .getRefconn 1 false none, .send 1 false, .gotPdu ⟨⟨2, 0⟩, []⟩]
    ⟨9, false, rfl⟩ (by decide)
  exact ⟨τ, s, hrun, hfew, hw, h₂, h₁, fun c req hs =>
    ((xid_rep_exact hrun hfew).2.2 c req hs).1⟩

end Yfs.Rpc
