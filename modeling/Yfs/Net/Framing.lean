import Yfs.Net.Sender
import Yfs.Net.Receiver

/-!
# PDUs on a stream

What an end writes is a string of whole PDUs, in the order in which their calls of `send` got the
write slot, and then perhaps the beginning of one more; and what the other end's manager accepts are
the first of these PDUs (`pdu_framing`). PDUs are self-delimiting, so the two ends cut the stream in
the same places.
-/

namespace Yfs.Net

open Yfs.Lib
open Yfs.Rpc (Bytes)

/-! ## The two ends -/

/-- The calls at end `e` that got the write slot, in the order in which they did. -/
def starts (e : Bool) (τ : List LinkEvent) : List Nat :=
  τ.filterMap fun ev => match ev with
    | .started e' i => if e' = e then some i else none
    | _ => none

/-- The calls at end `e` that have returned true. -/
def trues (e : Bool) (τ : List LinkEvent) : List Nat :=
  τ.filterMap fun ev => match ev with
    | .returned e' i true => if e' = e then some i else none
    | _ => none

/-- The PDUs that `got_pdu` has accepted at end `e`. -/
def accepts (e : Bool) (τ : List LinkEvent) : List Bytes :=
  τ.filterMap fun ev => match ev with
    | .accepted e' p => if e' = e then some p else none
    | _ => none

section
variable {e e' d : Bool} {i : Nat} {pc : SendPc} {τ es : List LinkEvent}

theorem starts_events : starts e' (pc.events e i) = [] := by
  cases pc <;> rfl

theorem trues_events :
    trues e' (pc.events e i) = if e = e' ∧ pc = .returned true then [i] else [] := by
  cases pc with
  | returned ret => cases ret <;> cases e <;> cases e' <;> rfl
  | waiting | completing | removing => simp [SendPc.events, trues]

theorem accepts_events : accepts e' (pc.events e i) = [] := by
  cases pc <;> rfl

theorem starts_slotEvents : starts e' (Link.slotEvents e i d pc) =
    if e = e' ∧ ¬ (d = true ∨ pc = .waiting) then [i] else [] := by
  unfold Link.slotEvents
  have happ : ∀ es es' : List LinkEvent, starts e' (es ++ es') = starts e' es ++ starts e' es' := by
    intro es es'
    exact List.filterMap_append
  rw [happ, starts_events, List.append_nil]
  split
  · rename_i h
    rw [if_neg (by simp [h])]
    rfl
  · rename_i h
    cases e <;> cases e' <;> simp [starts, h]

theorem trues_slotEvents : trues e' (Link.slotEvents e i d pc) =
    if e = e' ∧ pc = .returned true then [i] else [] := by
  rw [← trues_events]
  unfold Link.slotEvents
  split <;> rfl

theorem accepts_slotEvents : accepts e' (Link.slotEvents e i d pc) = [] := by
  have h : accepts e' (pc.events e i) = [] := accepts_events
  rw [← h]
  unfold Link.slotEvents
  split <;> rfl

end

/-- What holds at any point of a run, on each end. -/
def LinkOk (τ : List LinkEvent) (w : Link) : Prop :=
  ∀ e, (∃ ids S, SenderOk (w e) (starts e τ) (trues e τ) ids S) ∧
    ReceiverOk (w e).conn (w !e) (accepts e τ)

section
variable {w : Link} {τ es : List LinkEvent} {e : Bool} {x : End} {c c' : Connection}

theorem starts_append (e : Bool) (τ es : List LinkEvent) :
    starts e (τ ++ es) = starts e τ ++ starts e es := List.filterMap_append

theorem trues_append (e : Bool) (τ es : List LinkEvent) :
    trues e (τ ++ es) = trues e τ ++ trues e es := List.filterMap_append

theorem accepts_append (e : Bool) (τ es : List LinkEvent) :
    accepts e (τ ++ es) = accepts e τ ++ accepts e es := List.filterMap_append

/-- `c` becomes `c'` without a read, and without coming back to life. -/
structure Unread (c c' : Connection) : Prop where
  rpdu : c'.rpdu = c.rpdu
  dead : c.dead = true → c'.dead = true

/-- A step of end `e` that reads nothing. -/
theorem LinkOk.set (h : LinkOk τ w)
    (hs : ∃ ids S, SenderOk x (starts e (τ ++ es)) (trues e (τ ++ es)) ids S)
    (hc : Unread (w e).conn x.conn) (hout : (w e).out <+: x.out) (htaken : x.taken = (w e).taken)
    (hstarts : starts (!e) es = []) (htrues : trues (!e) es = [])
    (haccepts : ∀ e', accepts e' es = []) : LinkOk (τ ++ es) (w.set e x) := by
  intro e'
  rw [accepts_append, haccepts, List.append_nil]
  obtain rfl | rfl : e' = e ∨ e' = !e := by cases e <;> cases e' <;> simp
  · rw [show w.set e' x e' = x from Function.update_self ..,
      show w.set e' x (!e') = w (!e') from Function.update_of_ne (by simp) ..]
    exact ⟨hs, (h e').2.congr hc.rpdu hc.dead⟩
  · rw [show w.set e x (!e) = w (!e) from Function.update_of_ne (by simp) .., Bool.not_not,
      show w.set e x e = x from Function.update_self .., starts_append, hstarts, trues_append, htrues,
      List.append_nil, List.append_nil]
    have hr := (h !e).2
    rw [Bool.not_not] at hr
    exact ⟨(h !e).1, hr.write hout htaken⟩

theorem unread_writepdu {r : WriteResult} {succ : Bool} {bs : Bytes}
    (h : c.writepdu r = some (c', succ, bs)) : Unread c c' := by
  unfold Connection.writepdu at h
  dsimp only at h
  split at h
  · cases h
  · split at h
    · cases h
      exact ⟨rfl, id⟩
    · generalize (if c.wpdu.solong = 0 then _ else _) = wpdu at h
      split at h
      · split at h
        · cases h
          exact ⟨rfl, id⟩
        · cases h
      · cases h
        exact ⟨rfl, id⟩
      · cases h
        exact ⟨rfl, id⟩

theorem unread_awaitComplete (c : Connection) : Unread c c.awaitComplete.1 := by
  unfold Connection.awaitComplete
  split
  · exact ⟨rfl, id⟩
  · exact ⟨rfl, id⟩

theorem unread_awaitSlot {b bs : Bytes} {r : WriteResult} {pc : SendPc}
    (h : c.awaitSlot b r = some (c', pc, bs)) : Unread c c' := by
  unfold Connection.awaitSlot at h
  dsimp only at h
  split at h
  · cases h
    exact ⟨rfl, id⟩
  · split at h
    · cases h
      exact ⟨rfl, id⟩
    · rename_i hlive
      simp only [Option.bind_eq_bind, Option.bind_eq_some_iff] at h
      obtain ⟨⟨c₁, succ, out⟩, hwrite, h⟩ := h
      have hw := unread_writepdu hwrite
      cases succ with
      | true =>
          cases h
          exact ⟨(unread_awaitComplete c₁).rpdu.trans hw.rpdu, by simp [hlive]⟩
      | false =>
          cases h
          exact ⟨hw.rpdu, fun _ => rfl⟩

theorem unread_writeCb {r : WriteResult} {bs : Bytes} (h : c.writeCb r = some (c', bs)) :
    Unread c c' := by
  unfold Connection.writeCb at h
  split at h
  · cases h
  · rename_i hlive
    split at h
    · cases h
      exact ⟨rfl, id⟩
    · simp only [Option.bind_eq_bind, Option.bind_eq_some_iff] at h
      obtain ⟨⟨c₁, succ, out⟩, hwrite, h⟩ := h
      cases h
      exact ⟨(unread_writepdu hwrite).rpdu, fun hd => absurd hd hlive⟩

/-- A call of `send` goes on from the first loop. -/
theorem LinkOk.awaitSlot (h : LinkOk τ w) {i : Nat} {call : Call} {pc : SendPc} {r : WriteResult}
    {bs : Bytes} (hcall : (w e).calls[i]? = some call) (hpc : call.pc = .waiting)
    (hn : (w e).conn.awaitSlot call.buf r = some (c, pc, bs)) :
    LinkOk (τ ++ Link.slotEvents e i (w e).conn.dead pc)
      (w.set e { w e with
        conn := c
        calls := (w e).calls.set i ⟨call.buf, pc⟩
        out := (w e).out ++ bs }) := by
  obtain ⟨⟨ids, S, hs⟩, -⟩ := h e
  obtain ⟨ids', S', hs'⟩ := hs.awaitSlot hcall hpc hn
  refine h.set ⟨ids', S', ?_⟩ (unread_awaitSlot hn) (List.prefix_append _ _) rfl ?_ ?_
    fun _ => accepts_slotEvents
  · rw [starts_append, starts_slotEvents, trues_append, trues_slotEvents]
    convert hs' using 1
    · by_cases hw : (w e).conn.dead = true ∨ pc = .waiting <;> simp [hw]
    · by_cases hw : pc = .returned true <;> simp [hw]
  · rw [starts_slotEvents, if_neg (by simp)]
  · rw [trues_slotEvents, if_neg (by simp)]

/-- A call that has the slot goes on to `pc`. -/
theorem LinkOk.holder (h : LinkOk τ w) {i : Nat} {call : Call} {pc : SendPc}
    (hs : ∃ ids S, SenderOk { w e with conn := c, calls := (w e).calls.set i ⟨call.buf, pc⟩ }
      (starts e τ) (if pc = .returned true then trues e τ ++ [i] else trues e τ) ids S)
    (hc : Unread (w e).conn c) :
    LinkOk (τ ++ pc.events e i)
      (w.set e { w e with conn := c, calls := (w e).calls.set i ⟨call.buf, pc⟩ }) := by
  obtain ⟨ids, S, hs⟩ := hs
  refine h.set ⟨ids, S, ?_⟩ hc List.prefix_rfl rfl starts_events ?_
    fun _ => accepts_events
  · rw [starts_append, starts_events, List.append_nil, trues_append, trues_events]
    convert hs using 1
    by_cases hw : pc = .returned true <;> simp [hw]
  · rw [trues_events, if_neg (by simp)]

/-- An end with one more call of `send`, which is in the first loop. -/
def End.arrive (x : End) (b : Bytes) : End :=
  { x with
    conn := { x.conn with waiters := x.conn.waiters + 1 }
    calls := x.calls ++ [⟨b, .waiting⟩] }

/-- A new call of `send` takes its place in the first loop. -/
theorem LinkOk.arrive (h : LinkOk τ w) (e : Bool) {b : Bytes} (hb : Sendable b) :
    LinkOk τ (w.set e ((w e).arrive b)) := by
  obtain ⟨⟨ids, S, hs⟩, -⟩ := h e
  rw [← List.append_nil τ]
  refine h.set ⟨ids, S, ?_⟩ ⟨rfl, id⟩ List.prefix_rfl rfl rfl rfl fun _ => rfl
  rw [List.append_nil]
  exact (hs.append hb).congr (c := ((w e).arrive b).conn) rfl id

theorem LinkOk.next {a : LinkAction} {w' : Link} (h : LinkOk τ w)
    (hn : w.next a = some (w', es)) : LinkOk (τ ++ es) w' := by
  cases a with
  | send e b r =>
      unfold Link.next at hn
      dsimp only at hn
      split at hn
      · rename_i hb
        simp only [Option.bind_eq_bind, Option.bind_eq_some_iff] at hn
        obtain ⟨⟨c, pc, bs⟩, hsend, hn⟩ := hn
        cases hn
        have hin := h.arrive e hb
        have hget : ((w e).arrive b).calls[(w e).calls.length]? = some ⟨b, .waiting⟩ := by
          simp [End.arrive]
        have hx : w.set e ((w e).arrive b) e = (w e).arrive b := Function.update_self ..
        have hslot := hin.awaitSlot (e := e) (by rw [hx]; exact hget) rfl (by rw [hx]; exact hsend)
        rw [hx] at hslot
        simpa [End.arrive, Link.set] using hslot
      · cases hn
  | wakeSlot e i r =>
      simp only [Link.next, Option.bind_eq_bind, Option.bind_eq_some_iff] at hn
      obtain ⟨call, hcall, hn⟩ := hn
      split at hn
      · rename_i hpc
        obtain ⟨⟨c, pc, bs⟩, hslot, hn⟩ := Option.bind_eq_some_iff.mp hn
        cases hn
        exact h.awaitSlot hcall hpc hslot
      · cases hn
  | wakeComplete e i =>
      simp only [Link.next, Option.bind_eq_bind, Option.bind_eq_some_iff] at hn
      obtain ⟨call, hcall, hn⟩ := hn
      split at hn
      · rename_i hpc
        cases hn
        obtain ⟨⟨ids, S, hs⟩, -⟩ := h e
        exact h.holder (hs.awaitComplete hcall hpc) (unread_awaitComplete _)
      · cases hn
  | relock e i =>
      simp only [Link.next, Option.bind_eq_bind, Option.bind_eq_some_iff] at hn
      obtain ⟨call, hcall, hn⟩ := hn
      split at hn
      · rename_i hpc
        cases hn
        obtain ⟨⟨ids, S, hs⟩, -⟩ := h e
        have hdead := hs.removing call (List.mem_of_getElem? hcall) hpc
        obtain ⟨ret, ids', S', hret, hs'⟩ := hs.finish hcall (by rw [hpc]; rfl) (.inl hdead)
        rw [hret]
        refine h.holder ⟨ids', S', ?_⟩ ⟨rfl, id⟩
        cases ret <;> simpa using hs'
      · cases hn
  | writeCb e r =>
      simp only [Link.next, Option.bind_eq_bind, Option.bind_eq_some_iff] at hn
      obtain ⟨⟨c, bs⟩, hw, hn⟩ := hn
      cases hn
      obtain ⟨⟨ids, S, hs⟩, -⟩ := h e
      obtain ⟨S', hs'⟩ := hs.writeCb hw
      exact h.set ⟨ids, S', by simpa using hs'⟩ (unread_writeCb hw) (List.prefix_append _ _) rfl rfl
        rfl fun _ => rfl
  | readCb e r₁ r₂ accept =>
      simp only [Link.next, Option.bind_eq_bind, Option.bind_eq_some_iff] at hn
      obtain ⟨⟨c, n, p⟩, hread, hn⟩ := hn
      cases hn
      obtain ⟨hr, hw, hd⟩ := (h e).2.readCb hread
      have hstarts : ∀ e', starts e' (p.toList.map (.accepted e)) = [] := by
        cases p <;> simp [starts]
      have htrues : ∀ e', trues e' (p.toList.map (.accepted e)) = [] := by
        cases p <;> simp [trues]
      have haccepts : ∀ e', accepts e' (p.toList.map (.accepted e)) =
          if e = e' then p.toList else [] := by
        intro e'
        cases p <;> cases e <;> cases e' <;> rfl
      intro e'
      rw [starts_append, hstarts, List.append_nil, trues_append, htrues, List.append_nil,
        accepts_append, haccepts]
      obtain rfl | rfl : e' = e ∨ e' = !e := by cases e <;> cases e' <;> simp
      · obtain ⟨ids, S, hs⟩ := (h e').1
        rw [show ∀ x y, ((w.set e' x).set (!e') y) e' = x by simp [Link.set],
          show ∀ x y, ((w.set e' x).set (!e') y) (!e') = y by simp [Link.set], if_pos rfl]
        exact ⟨⟨ids, S, hs.congr hw hd⟩, hr⟩
      · obtain ⟨⟨ids, S, hs⟩, hr⟩ := h !e
        rw [show ∀ x y, ((w.set e x).set (!e) y) (!e) = y by simp [Link.set], Bool.not_not,
          show ∀ x y, ((w.set e x).set (!e) y) e = x by simp [Link.set], if_neg (by simp),
          List.append_nil]
        rw [Bool.not_not] at hr
        -- how much of its stream was read does not matter to the sender
        refine ⟨⟨ids, S, ?_⟩, hr.write List.prefix_rfl rfl⟩
        exact { hs with }
  | closeconn e =>
      cases hn
      obtain ⟨⟨ids, S, hs⟩, -⟩ := h e
      refine h.set ⟨ids, S, ?_⟩ ⟨rfl, fun _ => rfl⟩ List.prefix_rfl rfl rfl rfl fun _ => rfl
      simpa using hs.congr (c := (w e).conn.closeconn) rfl fun _ => rfl

theorem linkOk_run (h : linkSystem.Run τ w) : LinkOk τ w := by
  refine h.invariant (I := LinkOk) ?_ fun _ _ _ _ _ hi hn => hi.next hn
  rintro w rfl e
  refine ⟨⟨[], .free, ?_⟩, ?_⟩
  · constructor <;> simp [starts, trues, Slot.Ok, Slot.part, Slot.last]
  · exact ⟨by simp [accepts], by simp, by simp [accepts], fun _ => ⟨.inl rfl, by simp [accepts]⟩⟩

/-- The calls whose whole PDU is on the stream, and what follows it there. -/
theorem SenderOk.cut {started trues ids : List Nat} {S : Slot} (h : SenderOk x started trues ids S) :
    ∃ whole part, x.out = (whole.map (pdus x.calls)).flatten ++ part ∧
      (started = whole ∧ part = [] ∨
        ∃ i, started = whole ++ [i] ∧ part <+: pdus x.calls i ∧ part ≠ pdus x.calls i) ∧
      ids <+: whole := by
  have horder := h.order
  have hout := h.out
  have hproper : ∀ {i k}, k < (pdus x.calls i).length → (pdus x.calls i).take k ≠ pdus x.calls i := by
    intro i k hk heq
    have := congrArg List.length heq
    rw [List.length_take] at this
    omega
  have hslot := h.slot
  cases S with
  | free => exact ⟨ids, [], hout, .inl ⟨by simpa [Slot.last] using horder, rfl⟩, List.prefix_rfl⟩
  | busy i k =>
      by_cases hk : k = (pdus x.calls i).length
      · -- all of it is out, but `send` has not seen that yet
        refine ⟨ids ++ [i], [], ?_, .inl ⟨horder, rfl⟩, List.prefix_append _ _⟩
        rw [hout, Slot.part, hk]
        simp
      · refine ⟨ids, _, hout, .inr ⟨i, horder, List.take_prefix _ _, hproper ?_⟩, List.prefix_rfl⟩
        have := hslot.2
        omega
  | failed i k | broken i k =>
      exact ⟨ids, _, hout, .inr ⟨i, horder, List.take_prefix _ _, hproper hslot.2.2⟩,
        List.prefix_rfl⟩

/-- The calls that have got the slot are frames on the stream. -/
theorem SenderOk.isFrame {started trues ids : List Nat} {S : Slot} {i : Nat}
    (h : SenderOk x started trues ids S) (hi : i ∈ started) : pduFraming.IsFrame (pdus x.calls i) := by
  obtain ⟨call, hcall, -⟩ := h.known i hi
  rw [pdus_of_getElem hcall]
  exact isFrame_pdu (h.sendable call (List.mem_of_getElem? hcall))

/-- The framing of PDUs on a TCP connection, in each direction: the stream consists of the whole PDUs
of different calls of `send`, in the order in which these got the write slot, and of a part of the PDU
of at most one more call; `got_pdu` at the other end has accepted the first of these PDUs, each once
and in this order; and the PDU of a call that has returned true is among them. -/
theorem pdu_framing (hrun : linkSystem.Run τ w) (e : Bool) :
    ∃ whole part, (w e).out = (whole.map (pdus (w e).calls)).flatten ++ part ∧
      (starts e τ = whole ∧ part = [] ∨
        ∃ i, starts e τ = whole ++ [i] ∧ part <+: pdus (w e).calls i ∧ part ≠ pdus (w e).calls i) ∧
      (starts e τ).Nodup ∧ (∀ i ∈ starts e τ, i < (w e).calls.length) ∧
      accepts (!e) τ <+: whole.map (pdus (w e).calls) ∧
      ∀ i, .returned e i true ∈ τ → i ∈ whole := by
  have h := linkOk_run hrun
  obtain ⟨⟨ids, S, hs⟩, -⟩ := h e
  have hr := (h !e).2
  rw [Bool.not_not] at hr
  obtain ⟨whole, part, hout, hpart, hids⟩ := hs.cut
  have hwhole : ∀ i ∈ whole, i ∈ starts e τ := by
    intro i hi
    rcases hpart with ⟨heq, -⟩ | ⟨j, heq, -⟩ <;> rw [heq] <;> simp [hi]
  have hunfinished : pduFraming.Unfinished part := by
    rcases hpart with ⟨-, rfl⟩ | ⟨j, heq, hpre, hne⟩
    · exact .inl rfl
    · exact .inr ⟨_, hs.isFrame (by rw [heq]; simp), hpre, hne⟩
  refine ⟨whole, part, hout, hpart, hs.nodup, ?_, ?_, ?_⟩
  · intro i hi
    obtain ⟨call, hcall, -⟩ := hs.known i hi
    exact (List.getElem?_eq_some_iff.mp hcall).1
  · refine Framing.prefix_of_flatten hr.frames ?_ hunfinished (hout ▸ hr.pre)
    intro p hp
    obtain ⟨i, hi, rfl⟩ := List.mem_map.mp hp
    exact hs.isFrame (hwhole i hi)
  · intro i hi
    refine hids.subset (hs.written i ?_)
    exact List.mem_filterMap.mpr ⟨_, hi, by simp⟩

/-- Two calls of `send` at one end, the first of which is interrupted: the other end accepts both
PDUs. -/
theorem pdu_framing_two_sends :
    ∃ τ w, linkSystem.Run τ w ∧ starts true τ = [0, 1] ∧ (accepts false τ).length = 2 ∧
      ∃ whole part, (w true).out = (whole.map (pdus (w true).calls)).flatten ++ part ∧
        (starts true τ = whole ∧ part = [] ∨ ∃ i, starts true τ = whole ++ [i] ∧
          part <+: pdus (w true).calls i ∧ part ≠ pdus (w true).calls i) ∧
        (starts true τ).Nodup ∧ (∀ i ∈ starts true τ, i < (w true).calls.length) ∧
        accepts (!true) τ <+: whole.map (pdus (w true).calls) ∧
        ∀ i, .returned true i true ∈ τ → i ∈ whole := by
  obtain ⟨τ, w, hrun, hstarts, hlen⟩ := System.exists_run (S := linkSystem) (s := fun _ => {})
    (p := fun τ _ => starts true τ = [0, 1] ∧ (accepts false τ).length = 2)
    [.send true (List.replicate 24 1) (.wrote 10), .send true (List.replicate 25 2) .again,
      .readCb false (.got 4) (.got 3) true, .writeCb true (.wrote 14), .wakeComplete true 0,
      .wakeSlot true 1 (.wrote 25), .readCb false (.got 4) (.got 17) false,
      .readCb false (.got 4) (.got 1) true, .readCb false (.got 4) (.got 21) true] rfl (by decide)
  exact ⟨τ, w, hrun, hstarts, hlen, pdu_framing hrun true⟩

end

end Yfs.Net
