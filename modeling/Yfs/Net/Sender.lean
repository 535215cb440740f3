import Yfs.Net.Link
import Yfs.Net.Pdu

/-!
# The sender

`Slot` is how far the call with the write slot has come, and `SenderOk` relates it to the connection,
to the other calls and to the stream. Each section of `send` and `write_cb` keeps it.
-/

namespace Yfs.Net

open Yfs.Lib
open Yfs.Rpc (Bytes)
open Connection (stamp)

/-! ## The write slot -/

/-- How far the PDU in the write slot has come; `k` bytes of it are on the stream. -/
inductive Slot where
  | free
  /-- Call `i` has the slot. -/
  | busy (i k : Nat)
  /-- Call `i` has the slot, but `write` has failed. -/
  | failed (i k : Nat)
  /-- Call `i` has returned, and the rest of its PDU will never be written. -/
  | broken (i k : Nat)

namespace Slot

/-- The part of the PDU that is on the stream. -/
def part (pdus : Nat → Bytes) : Slot → Bytes
  | free => []
  | busy i k | failed i k | broken i k => (pdus i).take k

/-- The call whose PDU it is. -/
def last : Slot → List Nat
  | free => []
  | busy i _ | failed i _ | broken i _ => [i]

/-- The call that has the slot. -/
def holder : Slot → Option Nat
  | busy i _ | failed i _ => some i
  | _ => none

/-- What the slot says about the connection. -/
def Ok (pdus : Nat → Bytes) (c : Connection) : Slot → Prop
  | free => c.wpdu = {}
  | busy i k => c.wpdu = ⟨some (pdus i), (pdus i).length, k⟩ ∧ k ≤ (pdus i).length
  | failed i k => c.dead = true ∧ c.wpdu = ⟨some (pdus i), 0, -1⟩ ∧ k < (pdus i).length
  | broken i k => c.dead = true ∧ c.wpdu = {} ∧ k < (pdus i).length

variable {pdus : Nat → Bytes} {c c' : Connection} {S : Slot}

/-- The slot does not depend on what is read, and death only cuts it off. -/
theorem Ok.congr (h : S.Ok pdus c) (hw : c'.wpdu = c.wpdu) (hd : c.dead = true → c'.dead = true) :
    S.Ok pdus c' := by
  cases S with
  | free => exact hw.trans h
  | busy i k => exact ⟨hw.trans h.1, h.2⟩
  | failed i k | broken i k => exact ⟨hd h.1, hw.trans h.2.1, h.2.2⟩

/-- The slot depends on the PDU of its call only. -/
theorem congr_pdus {pdus' : Nat → Bytes} (h : ∀ i ∈ S.last, pdus' i = pdus i) :
    (S.Ok pdus' c ↔ S.Ok pdus c) ∧ S.part pdus' = S.part pdus := by
  cases S with
  | free => exact ⟨Iff.rfl, rfl⟩
  | busy i k | failed i k | broken i k =>
      have hi := h i (List.mem_singleton_self i)
      simp only [Ok, part, hi, and_self]

end Slot

/-- One call of `write` for a PDU of which `k` bytes are out: some more bytes go out, or none ever
will. -/
theorem writepdu_spec {c c' : Connection} {b p bs : Bytes} {k : Nat} {r : WriteResult} {succ : Bool}
    (hw : c.wpdu = ⟨some b, p.length, k⟩) (hk : k ≤ p.length) (hpos : 0 < p.length)
    (hb : if k = 0 then stamp p.length b = p else b = p)
    (h : c.writepdu r = some (c', succ, bs)) :
    (succ = true ∧ ∃ m, k + m ≤ p.length ∧ bs = (p.drop k).take m ∧
      c' = { c with wpdu := ⟨some p, p.length, (k + m : Nat)⟩ }) ∨
    (succ = false ∧ bs = [] ∧ k < p.length ∧ c' = { c with wpdu := ⟨some p, 0, -1⟩ }) := by
  unfold Connection.writepdu at h
  simp only [hw] at h
  rw [if_neg (by omega)] at h
  split at h
  · -- all of it is out already
    rename_i hall
    have hk : k = p.length := by omega
    rw [if_neg (by omega)] at hb
    cases h
    subst hb
    refine .inl ⟨rfl, 0, by omega, by simp, ?_⟩
    rw [Nat.add_zero, ← hw]
  · rename_i hmore
    have hstamped : (if (k : Int) = 0 then (⟨some (stamp p.length b), p.length, k⟩ : Charbuf)
        else ⟨some b, p.length, k⟩) = ⟨some p, p.length, k⟩ := by
      by_cases h0 : k = 0
      · rw [if_pos h0] at hb
        rw [if_pos (by omega), hb]
      · rw [if_neg h0] at hb
        rw [if_neg (by omega), hb]
    simp only [Option.map_some] at h
    rw [hstamped] at h
    cases r with
    | wrote n =>
        simp only [Option.getD_some] at h
        split at h
        · rename_i hn
          cases h
          rw [List.length_take, List.length_drop] at hn
          refine .inl ⟨rfl, n, by omega, ?_, by push_cast; rfl⟩
          rw [List.take_take, Nat.min_eq_left (by omega), Int.toNat_natCast]
        · cases h
    | again =>
        cases h
        exact .inl ⟨rfl, 0, by omega, by simp, rfl⟩
    | failed =>
        cases h
        exact .inr ⟨rfl, rfl, by omega, rfl⟩

/-! ## The calls of `send` -/

/-- A call in `send` that has the write slot. -/
def SendPc.holds : SendPc → Bool
  | .completing | .removing => true
  | _ => false

/-- The PDU of call `i`. -/
def pdus (calls : List Call) (i : Nat) : Bytes := (calls[i]?.map fun call => pdu call.buf).getD []

/-- What the calls, the connection and the stream of an end have to do with each other: `started` are
the calls that got the slot, `trues` those that returned true, and the PDUs of `ids` are on the
stream. -/
structure SenderOk (x : End) (started trues ids : List Nat) (S : Slot) : Prop where
  slot : S.Ok (pdus x.calls) x.conn
  out : x.out = (ids.map (pdus x.calls)).flatten ++ S.part (pdus x.calls)
  order : started = ids ++ S.last
  nodup : started.Nodup
  known : ∀ i ∈ started, ∃ call, x.calls[i]? = some call ∧ call.pc ≠ .waiting
  holder : ∀ i call, x.calls[i]? = some call → (call.pc.holds = true ↔ S.holder = some i)
  removing : ∀ call ∈ x.calls, call.pc = .removing → x.conn.dead = true
  sendable : ∀ call ∈ x.calls, Sendable call.buf
  written : ∀ i ∈ trues, i ∈ ids

section
variable {x : End} {started trues ids : List Nat} {S : Slot} {call : Call} {i j : Nat} {b : Bytes}
  {pc : SendPc} {c : Connection}

theorem pdus_of_getElem (h : x.calls[i]? = some call) : pdus x.calls i = pdu call.buf := by
  simp [pdus, h]

/-- The PDU of a call does not depend on how far the call is. -/
theorem pdus_set (h : x.calls[i]? = some call) (pc : SendPc) :
    pdus (x.calls.set i ⟨call.buf, pc⟩) = pdus x.calls := by
  funext j
  unfold pdus
  rw [List.getElem?_set]
  by_cases hj : i = j
  · subst hj
    obtain ⟨hlt, rfl⟩ := List.getElem?_eq_some_iff.mp h
    simp [hlt]
  · simp [hj]

theorem pdus_append (h : i < x.calls.length) : pdus (x.calls ++ [call]) i = pdus x.calls i := by
  unfold pdus
  rw [List.getElem?_append_left h]

namespace SenderOk

/-- The other parts of the connection may change. -/
theorem congr (h : SenderOk x started trues ids S) (hw : c.wpdu = x.conn.wpdu)
    (hd : x.conn.dead = true → c.dead = true) :
    SenderOk { x with conn := c } started trues ids S where
  slot := h.slot.congr hw hd
  out := h.out
  order := h.order
  nodup := h.nodup
  known := h.known
  holder := h.holder
  removing call hc hr := hd (h.removing call hc hr)
  sendable := h.sendable
  written := h.written

/-- A new call enters `send`. -/
theorem append (h : SenderOk x started trues ids S) (hb : Sendable b) :
    SenderOk { x with calls := x.calls ++ [⟨b, .waiting⟩] } started trues ids S := by
  have hlt : ∀ i ∈ started, i < x.calls.length := by
    intro i hi
    obtain ⟨call, hcall, -⟩ := h.known i hi
    exact (List.getElem?_eq_some_iff.mp hcall).1
  have hids : ∀ i ∈ ids, pdus (x.calls ++ [⟨b, .waiting⟩]) i = pdus x.calls i := by
    intro i hi
    exact pdus_append (hlt i (by rw [h.order]; simp [hi]))
  have hlast : ∀ i ∈ S.last, pdus (x.calls ++ [⟨b, .waiting⟩]) i = pdus x.calls i := by
    intro i hi
    exact pdus_append (hlt i (by rw [h.order]; simp [hi]))
  constructor
  case slot => exact (Slot.congr_pdus hlast).1.mpr h.slot
  case out =>
    rw [List.map_congr_left hids, (Slot.congr_pdus (c := x.conn) hlast).2]
    exact h.out
  case order => exact h.order
  case nodup => exact h.nodup
  case known =>
    intro i hi
    obtain ⟨call, hcall, hne⟩ := h.known i hi
    exact ⟨call, by rw [List.getElem?_append_left (hlt i hi)]; exact hcall, hne⟩
  case holder =>
    intro i call hcall
    rw [List.getElem?_append] at hcall
    split at hcall
    · exact h.holder i call hcall
    · rename_i hge
      obtain rfl : call = ⟨b, .waiting⟩ := by
        have := List.mem_of_getElem? hcall
        simpa using this
      -- the holder has started, and so it is an older call
      refine iff_of_false (by simp [SendPc.holds]) fun hh => hge (hlt i ?_)
      rw [h.order]
      cases S <;> simp_all [Slot.holder, Slot.last]
  case removing =>
    intro call hc hr
    rcases List.mem_append.mp hc with hc | hc
    · exact h.removing call hc hr
    · simp at hc
      simp [hc] at hr
  case sendable =>
    intro call hc
    rcases List.mem_append.mp hc with hc | hc
    · exact h.sendable call hc
    · simp at hc
      simpa [hc] using hb
  case written => exact h.written

/-- The call with the slot, or one that is about to get it, goes on. -/
theorem set (h : SenderOk x started trues ids S) (hcall : x.calls[i]? = some call) (pc : SendPc)
    (out : Bytes) {started' trues' ids' : List Nat} {S' : Slot}
    (hslot : S'.Ok (pdus x.calls) c)
    (hout : x.out ++ out = (ids'.map (pdus x.calls)).flatten ++ S'.part (pdus x.calls))
    (hstarted : started' = ids' ++ S'.last) (hnodup : started'.Nodup)
    (hknown : ∀ j ∈ started', j = i ∧ pc ≠ .waiting ∨ j ∈ started ∧ (j = i → pc ≠ .waiting))
    (hholder : pc.holds = true ↔ S'.holder = some i)
    (hothers : ∀ j, j ≠ i → (S'.holder = some j ↔ S.holder = some j))
    (hremoving : pc = .removing → c.dead = true) (hdead : x.conn.dead = true → c.dead = true)
    (htrues : ∀ j ∈ trues', j ∈ ids') :
    SenderOk { x with conn := c, calls := x.calls.set i ⟨call.buf, pc⟩, out := x.out ++ out }
      started' trues' ids' S' := by
  have hlt := (List.getElem?_eq_some_iff.mp hcall).1
  have hpdus := pdus_set hcall pc
  have hget : ∀ j, (x.calls.set i ⟨call.buf, pc⟩)[j]? =
      if i = j then some ⟨call.buf, pc⟩ else x.calls[j]? := by
    intro j
    rw [List.getElem?_set]
    split
    · rfl
    · rfl
  constructor
  case slot =>
    show S'.Ok (pdus (x.calls.set i ⟨call.buf, pc⟩)) c
    rwa [hpdus]
  case out =>
    show x.out ++ out = _
    simp only [hpdus]
    exact hout
  case order => exact hstarted
  case nodup => exact hnodup
  case known =>
    intro j hj
    show ∃ call', (x.calls.set i ⟨call.buf, pc⟩)[j]? = some call' ∧ _
    rw [hget]
    split
    · rename_i hij
      subst hij
      rcases hknown i hj with ⟨-, hne⟩ | ⟨-, hne⟩
      · exact ⟨_, rfl, hne⟩
      · exact ⟨_, rfl, hne rfl⟩
    · rename_i hij
      rcases hknown j hj with ⟨rfl, -⟩ | ⟨hj, -⟩
      · exact absurd rfl hij
      · exact h.known j hj
  case holder =>
    intro j call' hj
    change (x.calls.set i ⟨call.buf, pc⟩)[j]? = some call' at hj
    rw [hget] at hj
    split at hj
    · rename_i hij
      subst hij
      cases hj
      exact hholder
    · rename_i hij
      exact (h.holder j call' hj).trans (hothers j (Ne.symm hij)).symm
  case removing =>
    intro call' hc hr
    rcases List.mem_or_eq_of_mem_set hc with hc | rfl
    · exact hdead (h.removing call' hc hr)
    · exact hremoving hr
  case sendable =>
    intro call' hc
    rcases List.mem_or_eq_of_mem_set hc with hc | rfl
    · exact h.sendable call' hc
    · exact h.sendable call (List.mem_of_getElem? hcall)
  case written => exact htrues

/-- A call that waits has not started. -/
theorem not_started (h : SenderOk x started trues ids S) (hcall : x.calls[i]? = some call)
    (hpc : call.pc = .waiting) : i ∉ started := by
  intro hi
  obtain ⟨call', hcall', hne⟩ := h.known i hi
  rw [hcall] at hcall'
  cases hcall'
  exact hne hpc

theorem pdus_pos (h : SenderOk x started trues ids S) (hcall : x.calls[i]? = some call) :
    0 < (pdu call.buf).length := by
  have hb := h.sendable call (List.mem_of_getElem? hcall)
  rw [length_pdu hb]
  have := hb.1
  omega

/-- A call that does not get the slot. -/
theorem pass (h : SenderOk x started trues ids S) (hcall : x.calls[i]? = some call)
    (hpc : call.pc = .waiting) (hpc' : pc.holds = false) (hw : c.wpdu = x.conn.wpdu)
    (hd : x.conn.dead = true → c.dead = true) :
    SenderOk { x with conn := c, calls := x.calls.set i ⟨call.buf, pc⟩, out := x.out ++ [] }
      started trues ids S := by
  have hi := h.not_started hcall hpc
  refine h.set hcall pc [] (h.slot.congr hw hd) (by rw [List.append_nil]; exact h.out) h.order h.nodup
    (fun j hj => .inr ⟨hj, fun hji => absurd (hji ▸ hj) hi⟩) ?_ (fun _ _ => Iff.rfl)
    (fun hr => by simp [hr, SendPc.holds] at hpc') hd h.written
  have hold := h.holder i call hcall
  rw [hpc] at hold
  exact iff_of_false (by simp [hpc']) (mt hold.mpr (by simp [SendPc.holds]))

/-- A call gets the slot: the first part of its PDU goes out. -/
theorem start (h : SenderOk x started trues ids .free) (hcall : x.calls[i]? = some call)
    (hpc : call.pc = .waiting) (hlive : x.conn.dead = false) (k : Nat) (pc : SendPc) {S' : Slot}
    (hS' : S' = .busy i k ∨ S' = .failed i k) (hslot : S'.Ok (pdus x.calls) c)
    (hholds : pc.holds = true) (hremoving : pc = .removing → c.dead = true) :
    SenderOk { x with
        conn := c
        calls := x.calls.set i ⟨call.buf, pc⟩
        out := x.out ++ (pdu call.buf).take k } (started ++ [i]) trues ids S' := by
  have hi := h.not_started hcall hpc
  have hnodup : (started ++ [i]).Nodup := by
    rw [List.nodup_append]
    refine ⟨h.nodup, by simp, fun j hj => ?_⟩
    rintro j' hj' rfl
    simp at hj'
    exact hi (hj' ▸ hj)
  have hne : pc ≠ .waiting := by
    rintro rfl
    simp [SendPc.holds] at hholds
  have hids := h.order
  have hout := h.out
  simp only [Slot.last, Slot.part, List.append_nil] at hids hout
  rcases hS' with rfl | rfl <;>
  · refine h.set hcall pc _ hslot ?_ (by rw [hids]; rfl) hnodup (fun j hj => ?_) ?_ ?_ hremoving
      (by simp [hlive]) h.written
    · rw [hout, Slot.part, pdus_of_getElem hcall]
    · rcases List.mem_append.mp hj with hj | hj
      · exact .inr ⟨hj, fun hji => absurd (hji ▸ hj) hi⟩
      · exact .inl ⟨by simpa using hj, hne⟩
    · exact iff_of_true hholds rfl
    · intro j hj
      simp [Slot.holder, Ne.symm hj]

/-- The call with the slot returns: its PDU is out, or will never be. -/
theorem finish (h : SenderOk x started trues ids S) (hcall : x.calls[i]? = some call)
    (hholds : call.pc.holds = true)
    (hstop : x.conn.dead = true ∨ x.conn.wpdu.solong = x.conn.wpdu.sz) :
    ∃ ret ids' S', x.conn.finishSend.2 = .returned ret ∧
      SenderOk { x with
          conn := x.conn.finishSend.1
          calls := x.calls.set i ⟨call.buf, .returned ret⟩ }
        started (if ret then trues ++ [i] else trues) ids' S' := by
  have hS := (h.holder i call hcall).mp hholds
  have hslot := h.slot
  have hout := h.out
  have horder := h.order
  have hset : ∀ {ids' : List Nat} {S' : Slot} {ret : Bool},
      S'.Ok (pdus x.calls) x.conn.finishSend.1 →
      x.out = (ids'.map (pdus x.calls)).flatten ++ S'.part (pdus x.calls) →
      started = ids' ++ S'.last → S'.holder = none →
      (∀ j ∈ if ret then trues ++ [i] else trues, j ∈ ids') →
      SenderOk { x with
          conn := x.conn.finishSend.1
          calls := x.calls.set i ⟨call.buf, .returned ret⟩ }
        started (if ret then trues ++ [i] else trues) ids' S' := by
    intro ids' S' ret hslot' hout' horder' hholder' htrues'
    have := h.set hcall (.returned ret) [] hslot' (by rw [List.append_nil]; exact hout') horder' h.nodup
      (fun j hj => .inr ⟨hj, by simp⟩) (by simp [SendPc.holds, hholder'])
      (fun j hj => by simp [hholder', hS, Ne.symm hj]) (by simp) id htrues'
    simpa using this
  cases S with
  | free | broken => cases hS
  | busy j k =>
      cases hS
      obtain ⟨hw, hk⟩ := hslot
      by_cases hall : k = (pdus x.calls i).length
      · -- the whole PDU is out
        refine ⟨!x.conn.dead, ids ++ [i], .free, ?_, hset rfl ?_ ?_ rfl ?_⟩
        · simp [Connection.finishSend, hw, hall]
        · rw [hout, hall]
          simp [Slot.part]
        · simpa [Slot.last] using horder
        · intro j hj
          split at hj
          · rcases List.mem_append.mp hj with hj | hj
            · exact List.mem_append_left _ (h.written j hj)
            · exact List.mem_append_right _ hj
          · exact List.mem_append_left _ (h.written j hj)
      · have hdead : x.conn.dead = true := by
          rcases hstop with hd | hs
          · exact hd
          · rw [hw] at hs
            exact absurd (Int.ofNat.inj hs) hall
        refine ⟨false, ids, .broken i k, ?_, hset ⟨hdead, rfl, by omega⟩ hout horder rfl ?_⟩
        · simp [Connection.finishSend, hdead]
        · simpa using h.written
  | failed j k =>
      cases hS
      obtain ⟨hdead, hw, hk⟩ := hslot
      refine ⟨false, ids, .broken i k, ?_, hset ⟨hdead, rfl, hk⟩ hout horder rfl ?_⟩
      · simp [Connection.finishSend, hdead]
      · simpa using h.written

/-- `send` goes on from the second loop. -/
theorem awaitComplete (h : SenderOk x started trues ids S) (hcall : x.calls[i]? = some call)
    (hpc : call.pc = .completing) :
    ∃ ids' S', SenderOk { x with
        conn := x.conn.awaitComplete.1
        calls := x.calls.set i ⟨call.buf, x.conn.awaitComplete.2⟩ }
      started (if x.conn.awaitComplete.2 = .returned true then trues ++ [i] else trues) ids' S' := by
  unfold Connection.awaitComplete
  split
  · -- it waits on
    refine ⟨ids, S, ?_⟩
    obtain ⟨hlt, rfl⟩ := List.getElem?_eq_some_iff.mp hcall
    rw [if_neg (by simp), ← hpc, List.set_getElem_self hlt]
    exact h
  · rename_i hstop
    have hholds : call.pc.holds = true := by rw [hpc]; rfl
    have hcut : x.conn.dead = true ∨ x.conn.wpdu.solong = x.conn.wpdu.sz := by
      have hslot := h.slot
      have hS := (h.holder i call hcall).mp hholds
      cases S with
      | free | broken => cases hS
      | busy j k =>
          obtain ⟨hw, hk⟩ := hslot
          rw [hw] at hstop ⊢
          by_contra hno
          rw [not_or, Bool.not_eq_true] at hno
          refine hstop ⟨hno.1, Int.natCast_nonneg k, ?_⟩
          have := hno.2
          simp only at this ⊢
          omega
      | failed j k => exact .inl hslot.1
    obtain ⟨ret, ids', S', hret, h'⟩ := h.finish hcall hholds hcut
    refine ⟨ids', S', ?_⟩
    rw [hret]
    cases ret
    · simpa using h'
    · simpa using h'

/-- `send` goes on from the first loop. -/
theorem awaitSlot (h : SenderOk x started trues ids S) (hcall : x.calls[i]? = some call)
    (hpc : call.pc = .waiting) {r : WriteResult} {bs : Bytes}
    (hn : x.conn.awaitSlot call.buf r = some (c, pc, bs)) :
    ∃ ids' S', SenderOk { x with
        conn := c
        calls := x.calls.set i ⟨call.buf, pc⟩
        out := x.out ++ bs }
      (if x.conn.dead = true ∨ pc = .waiting then started else started ++ [i])
      (if pc = .returned true then trues ++ [i] else trues) ids' S' := by
  unfold Connection.awaitSlot at hn
  split at hn
  · -- the slot is taken
    cases hn
    rw [if_pos (.inr rfl), if_neg (by simp)]
    exact ⟨ids, S, h.pass hcall hpc rfl rfl id⟩
  · rename_i hfree
    simp only at hn
    split at hn
    · rename_i hdead
      cases hn
      rw [if_pos (.inl hdead), if_neg (by simp)]
      exact ⟨ids, S, h.pass hcall hpc rfl rfl id⟩
    · rename_i hlive
      have hlive : x.conn.dead = false := by simpa using hlive
      have hbuf : x.conn.wpdu.buf = none := by
        by_contra hbuf
        exact hfree ⟨hlive, hbuf⟩
      obtain rfl : S = .free := by
        have hslot := h.slot
        cases S with
        | free => rfl
        | busy j k => simp [hslot.1] at hbuf
        | failed j k | broken j k => simp [hlive, Slot.Ok] at hslot
      have hp := pdus_of_getElem hcall
      have hlen : ((pdu call.buf).length : Int) = call.buf.length := by
        rw [length_pdu (h.sendable call (List.mem_of_getElem? hcall))]
      simp only [Option.bind_eq_bind, Option.bind_eq_some_iff] at hn
      obtain ⟨⟨c₁, succ, out⟩, hwrite, hn⟩ := hn
      have hspec := writepdu_spec (b := call.buf) (p := pdu call.buf) (k := 0) (by simp [hlen])
        (Nat.zero_le _) (h.pdus_pos hcall) (by rw [if_pos rfl, hlen]; rfl) hwrite
      rcases hspec with ⟨rfl, m, hm, rfl, hc₁⟩ | ⟨rfl, rfl, hlt, hc₁⟩
      · -- some of the PDU goes out; then the second loop
        rw [Nat.zero_add] at hm
        have hslot : (Slot.busy i m).Ok (pdus x.calls) c₁ := by
          rw [Slot.Ok, hp, hc₁, Nat.zero_add]
          exact ⟨rfl, hm⟩
        have hstart := h.start hcall hpc hlive m .completing (.inl rfl) hslot rfl (by simp)
        obtain ⟨hlti, -⟩ := List.getElem?_eq_some_iff.mp hcall
        have hcall' : (x.calls.set i ⟨call.buf, .completing⟩)[i]? =
            some ⟨call.buf, .completing⟩ := by simp [hlti]
        obtain ⟨ids', S', h'⟩ := hstart.awaitComplete hcall' rfl
        obtain ⟨rfl, rfl, rfl⟩ : c₁.awaitComplete.1 = c ∧ c₁.awaitComplete.2 = pc ∧
            (pdu call.buf).take m = bs := by
          simpa [Prod.ext_iff] using hn
        have hpc' : c₁.awaitComplete.2 ≠ .waiting := by
          unfold Connection.awaitComplete Connection.finishSend
          split <;> simp
        refine ⟨ids', S', ?_⟩
        rw [if_neg (by simp [hlive, hpc'])]
        simpa using h'
      · have hslot : (Slot.failed i 0).Ok (pdus x.calls) { c₁ with dead := true } := by
          rw [Slot.Ok, hp, hc₁]
          exact ⟨rfl, rfl, hlt⟩
        have hstart := h.start hcall hpc hlive 0 .removing (.inr rfl) hslot rfl fun _ => rfl
        obtain ⟨rfl, rfl, rfl⟩ : { c₁ with dead := true } = c ∧ .removing = pc ∧ [] = bs := by
          simpa [Prod.ext_iff] using hn
        rw [if_neg (by simp [hlive]), if_neg (by simp)]
        exact ⟨ids, .failed i 0, by simpa using hstart⟩

/-- `write_cb` writes some more of the PDU in the slot. -/
theorem writeCb (h : SenderOk x started trues ids S) {r : WriteResult} {bs : Bytes}
    (hn : x.conn.writeCb r = some (c, bs)) :
    ∃ S', SenderOk { x with conn := c, out := x.out ++ bs } started trues ids S' := by
  unfold Connection.writeCb at hn
  split at hn
  · cases hn
  · rename_i hlive
    have hlive : x.conn.dead = false := by simpa using hlive
    split at hn
    · -- nothing to write
      cases hn
      exact ⟨S, by simpa using h⟩
    · rename_i hsz
      have hslot := h.slot
      cases S with
      | free => simp [show x.conn.wpdu = {} from hslot] at hsz
      | failed i k | broken i k => simp [hlive, Slot.Ok] at hslot
      | busy i k =>
          obtain ⟨hw, hk⟩ := hslot
          obtain ⟨call, hcall, -⟩ := h.known i (by rw [h.order]; simp [Slot.last])
          have hp := pdus_of_getElem hcall
          have hstamp : stamp (pdus x.calls i).length (pdus x.calls i) = pdus x.calls i := by
            rw [hp, length_pdu (h.sendable call (List.mem_of_getElem? hcall)), stamp_pdu]
          have hpos : 0 < (pdus x.calls i).length := by
            rw [hp]
            exact h.pdus_pos hcall
          simp only [Option.bind_eq_bind, Option.bind_eq_some_iff] at hn
          obtain ⟨⟨c₁, succ, out⟩, hwrite, hn⟩ := hn
          cases hn
          -- the call with the slot stays where it is
          have hself : x.calls.set i ⟨call.buf, call.pc⟩ = x.calls := by
            obtain ⟨hlt, rfl⟩ := List.getElem?_eq_some_iff.mp hcall
            exact List.set_getElem_self hlt
          have hset : ∀ S' : Slot, S'.Ok (pdus x.calls) { c₁ with dead := !succ } →
              x.out ++ out = (ids.map (pdus x.calls)).flatten ++ S'.part (pdus x.calls) →
              S'.last = [i] → S'.holder = some i →
              SenderOk { x with conn := { c₁ with dead := !succ }, out := x.out ++ out }
                started trues ids S' := by
            intro S' hok hout hlast hholder
            have := h.set hcall call.pc out hok hout (by rw [hlast]; exact h.order) h.nodup
              (fun j hj => .inr ⟨hj, fun hji => ?_⟩) ?_ (fun j hj => by rw [hholder]; rfl)
              (fun hr => ?_) (by simp [hlive]) h.written
            · rwa [hself] at this
            · obtain ⟨call', hcall', hne⟩ := h.known j hj
              rw [hji, hcall] at hcall'
              cases hcall'
              exact hne
            · rw [hholder]
              simpa [Slot.holder] using h.holder i call hcall
            · exact absurd (h.removing call (List.mem_of_getElem? hcall) hr) (by simp [hlive])
          have hb : if k = 0 then stamp (pdus x.calls i).length (pdus x.calls i) = pdus x.calls i
              else pdus x.calls i = pdus x.calls i := by
            split
            · exact hstamp
            · rfl
          rcases writepdu_spec hw hk hpos hb hwrite with
            ⟨rfl, m, hm, rfl, rfl⟩ | ⟨rfl, rfl, hlt, rfl⟩
          · refine ⟨.busy i (k + m), hset _ ⟨rfl, hm⟩ ?_ rfl rfl⟩
            rw [h.out, List.append_assoc, Slot.part, Slot.part, List.take_add]
          · refine ⟨.failed i k, hset _ ⟨rfl, rfl, hlt⟩ ?_ rfl rfl⟩
            rw [List.append_nil, h.out]
            rfl

end SenderOk

end

end Yfs.Net
