import Yfs.Net.Link
import Yfs.Net.Pdu

/-!
# The receiver

`ReceiverOk` says that the bytes read so far are the PDUs accepted so far and the part in `rpdu_`.
Whatever `read` returns, `read_cb` keeps it, and a PDU that it hands to the manager is a whole one.
-/

namespace Yfs.Net

open Yfs.Lib
open Yfs.Rpc (Bytes)
open Connection (pduSize)

/-- A PDU that is being read: its first four bytes are there, and say how long it is. -/
def Charbuf.RpduOk (r : Charbuf) : Prop :=
  r = {} ∨ ∃ b, r.buf = some b ∧ 4 ≤ b.length ∧ r.solong = b.length ∧ r.solong ≤ r.sz ∧
    pduSize (b.take 4) = r.sz

/-- The PDUs in `accepted` are the first bytes on the stream of `y`; and a connection `c` that is not
dead has read them and what it has in `rpdu_`. -/
structure ReceiverOk (c : Connection) (y : End) (accepted : List Bytes) : Prop where
  frames : ∀ p ∈ accepted, pduFraming.IsFrame p
  taken : y.taken ≤ y.out.length
  pre : accepted.flatten <+: y.out
  live : c.dead = false → c.rpdu.RpduOk ∧
    y.out.take y.taken = accepted.flatten ++ c.rpdu.buf.getD []

section
variable {c c' : Connection} {y : End} {accepted : List Bytes} {input : Bytes} {n : Nat} {succ : Bool}

/-- The beginning of `read_cb`: more of the PDU is read, unless all of it is there. -/
def Connection.readMore (c : Connection) (input : Bytes) (r₁ r₂ : ReadResult) :
    Option (Connection × Bool × Nat) :=
  if c.rpdu.buf = none ∨ c.rpdu.solong < c.rpdu.sz then c.readpdu input r₁ r₂ else some (c, true, 0)

/-- A call of `read_cb` reads, and then offers the PDU. -/
theorem readCb_live (hlive : c.dead = false) (input : Bytes) (r₁ r₂ : ReadResult) (accept : Bool) :
    c.readCb input r₁ r₂ accept = (c.readMore input r₁ r₂).map fun r =>
      (({ r.1 with dead := !r.2.1 }.offer accept).1, r.2.2,
        ({ r.1 with dead := !r.2.1 }.offer accept).2) := by
  unfold Connection.readCb Connection.readMore
  rw [if_neg (by simp [hlive])]
  split
  · cases c.readpdu input r₁ r₂ <;> rfl
  · rfl

theorem readCb_dead (hdead : c.dead = true) (input : Bytes) (r₁ r₂ : ReadResult) (accept : Bool) :
    c.readCb input r₁ r₂ accept = some (c, 0, none) := by
  unfold Connection.readCb
  rw [if_pos hdead]

/-- What one call of `readpdu` does: it appends bytes of the stream to the PDU, or it fails and leaves
no PDU. -/
structure ReadStep (c c' : Connection) (succ : Bool) (input : Bytes) (n : Nat) : Prop where
  le : n ≤ input.length
  wpdu : c'.wpdu = c.wpdu
  read : succ = true → c'.rpdu.RpduOk ∧
    c'.rpdu.buf.getD [] = c.rpdu.buf.getD [] ++ input.take n
  fail : succ = false → c'.rpdu.buf = none

theorem readBody_spec {r : ReadResult} (hr : c.rpdu.RpduOk) (hsz : c.rpdu.sz ≠ 0)
    (h : c.readBody input r = some (c', succ, n)) : ReadStep c c' succ input n := by
  obtain hr | ⟨b, hb, hlen, hsolong, hle, hsize⟩ := hr
  · simp [hr] at hsz
  · have hok : c.rpdu.RpduOk := .inr ⟨b, hb, hlen, hsolong, hle, hsize⟩
    unfold Connection.readBody at h
    split at h
    · rename_i n'
      split at h
      · rename_i hn
        cases h
        refine ⟨hn.2.2, rfl, fun _ => ⟨.inr ⟨b ++ input.take n, by simp [hb], ?_, ?_, ?_, ?_⟩, ?_⟩, ?_⟩
        · rw [List.length_append]
          omega
        · simp only [List.length_append, List.length_take, hsolong, Nat.min_eq_left hn.2.2]
          push_cast
          rfl
        · simp only
          omega
        · rw [List.take_append_of_le_length hlen]
          exact hsize
        · simp [hb]
        · simp
      · cases h
    · cases h
      exact ⟨Nat.zero_le _, rfl, fun _ => ⟨hok, by simp⟩, by simp⟩
    · cases h
      exact ⟨Nat.zero_le _, rfl, fun _ => ⟨hok, by simp⟩, by simp⟩
    · cases h
      exact ⟨Nat.zero_le _, rfl, by simp, fun _ => rfl⟩
    · cases h
      exact ⟨Nat.zero_le _, rfl, by simp, fun _ => rfl⟩

theorem readpdu_spec {r₁ r₂ : ReadResult} (hr : c.rpdu.RpduOk)
    (h : c.readpdu input r₁ r₂ = some (c', succ, n)) : ReadStep c c' succ input n := by
  unfold Connection.readpdu at h
  split at h
  · exact readBody_spec hr ‹_› h
  · rename_i hsz
    -- no PDU has been begun
    have hempty : c.rpdu = {} := by
      obtain hr | ⟨b, hb, hlen, hsolong, hle, -⟩ := hr
      · exact hr
      · simp only [ne_eq, not_not] at hsz
        omega
    have hnone : c.rpdu.buf = none := by rw [hempty]
    split at h
    · cases h
      exact ⟨Nat.zero_le _, rfl, by simp, fun _ => hnone⟩
    · cases h
      exact ⟨Nat.zero_le _, rfl, by simp, fun _ => hnone⟩
    · cases h
    · rename_i m
      split at h
      · rename_i hm
        split at h
        · cases h
          exact ⟨hm.2.2, rfl, by simp, fun _ => hnone⟩
        · rename_i hfour
          simp only at h
          split at h
          · cases h
            exact ⟨by omega, rfl, by simp, fun _ => hnone⟩
          · split at h
            · cases h
            · rename_i hmin
              simp only [Option.bind_eq_bind, Option.bind_eq_some_iff] at h
              obtain ⟨⟨c₁, s₁, m₁⟩, hbody, h⟩ := h
              cases h
              have hlen : (input.take 4).length = 4 := by
                rw [List.length_take]
                omega
              have hok : Charbuf.RpduOk ⟨some (input.take 4), pduSize (input.take 4), 4⟩ := by
                refine .inr ⟨_, rfl, by omega, by simp [hlen], by simp only; omega, ?_⟩
                rw [List.take_take, Nat.min_self]
              have hspec := readBody_spec (c := { c with rpdu := ⟨some (input.take 4),
                pduSize (input.take 4), 4⟩ }) hok (by simp only; omega) hbody
              have hrest := hspec.le
              rw [List.length_drop] at hrest
              have hle : 4 + m₁ ≤ input.length := by omega
              refine ⟨hle, hspec.wpdu, fun hs => ⟨(hspec.read hs).1, ?_⟩, hspec.fail⟩
              rw [(hspec.read hs).2, hnone]
              simp [List.take_add]
      · cases h

/-- A PDU that is complete is a frame. -/
theorem Charbuf.RpduOk.isFrame {r : Charbuf} {b : Bytes} (hr : r.RpduOk) (hb : r.buf = some b)
    (hall : r.sz = r.solong) : pduFraming.IsFrame b := by
  obtain rfl | ⟨b', hb', hlen, hsolong, hle, hsize⟩ := hr
  · cases hb
  · rw [hb] at hb'
    cases hb'
    refine ⟨hlen, ?_⟩
    have := size_of_pduSize hsize (by omega)
    show pduFraming.size (b.take 4) = b.length
    omega

namespace ReceiverOk

/-- The other end writes. -/
theorem write (h : ReceiverOk c y accepted) {y' : End} (hout : y.out <+: y'.out)
    (htaken : y'.taken = y.taken) : ReceiverOk c y' accepted where
  frames := h.frames
  taken := by
    rw [htaken]
    exact h.taken.trans hout.length_le
  pre := h.pre.trans hout
  live hd := by
    obtain ⟨bs, hbs⟩ := hout
    rw [← hbs, htaken, List.take_append_of_le_length h.taken]
    exact h.live hd

/-- This end does not read. -/
theorem congr (h : ReceiverOk c y accepted) (hr : c'.rpdu = c.rpdu)
    (hd : c.dead = true → c'.dead = true) : ReceiverOk c' y accepted where
  frames := h.frames
  taken := h.taken
  pre := h.pre
  live hd' := by
    rw [hr]
    exact h.live (Bool.not_eq_true _ ▸ mt hd (by simp [hd']))

/-- Bytes are read into `rpdu_`, or the connection dies. -/
theorem step (h : ReceiverOk c y accepted) (hlive : c.dead = false)
    (hs : ReadStep c c' succ (y.out.drop y.taken) n) :
    ReceiverOk { c' with dead := !succ } { y with taken := y.taken + n } accepted where
  frames := h.frames
  taken := by
    have := hs.le
    rw [List.length_drop] at this
    have := h.taken
    show y.taken + n ≤ y.out.length
    omega
  pre := h.pre
  live hd := by
    obtain ⟨hr, hbuf⟩ := hs.read (by simpa using hd)
    refine ⟨hr, ?_⟩
    show y.out.take (y.taken + n) = _ ++ c'.rpdu.buf.getD []
    rw [List.take_add, (h.live hlive).2, hbuf, List.append_assoc]

/-- The PDU in `rpdu_` is accepted if it is complete and the manager wants it. -/
theorem offer (h : ReceiverOk c y accepted) (hbuf : c.dead = true → c.rpdu.buf = none)
    (accept : Bool) :
    ReceiverOk (c.offer accept).1 y (accepted ++ (c.offer accept).2.toList) := by
  unfold Connection.offer
  split
  · rename_i b hb
    split
    · rename_i hall
      have hlive : c.dead = false := by
        by_contra hd
        rw [hbuf (by simpa using hd)] at hb
        cases hb
      obtain ⟨hr, htake⟩ := h.live hlive
      have htake : y.out.take y.taken = (accepted ++ [b]).flatten := by
        rw [htake, hb]
        simp
      refine ⟨fun p hp => ?_, h.taken, ?_, fun _ => ⟨.inl rfl, ?_⟩⟩
      · rcases List.mem_append.mp hp with hp | hp
        · exact h.frames p hp
        · obtain rfl : p = b := by simpa using hp
          exact hr.isFrame hb hall.1
      · show (accepted ++ [b]).flatten <+: y.out
        rw [← htake]
        exact List.take_prefix _ _
      · show y.out.take y.taken = (accepted ++ [b]).flatten ++ []
        rw [htake, List.append_nil]
    · simpa using h
  · simpa using h

theorem readCb (h : ReceiverOk c y accepted) {r₁ r₂ : ReadResult} {accept : Bool}
    {p : Option Bytes}
    (hn : c.readCb (y.out.drop y.taken) r₁ r₂ accept = some (c', n, p)) :
    ReceiverOk c' { y with taken := y.taken + n } (accepted ++ p.toList) ∧ c'.wpdu = c.wpdu ∧
      (c.dead = true → c'.dead = true) := by
  cases hlive : c.dead with
  | true =>
      rw [readCb_dead hlive] at hn
      cases hn
      exact ⟨by simpa using h, rfl, fun _ => hlive⟩
  | false =>
      rw [readCb_live hlive] at hn
      obtain ⟨⟨c₁, succ, m⟩, hread, hres⟩ := Option.map_eq_some_iff.mp hn
      cases hres
      have hstep : ReadStep c c₁ succ (y.out.drop y.taken) m := by
        unfold Connection.readMore at hread
        split at hread
        · exact readpdu_spec (h.live hlive).1 hread
        · -- the PDU in `rpdu_` was refused before
          cases hread
          exact ⟨Nat.zero_le _, rfl, fun _ => ⟨(h.live hlive).1, by simp⟩, by simp⟩
      refine ⟨(h.step hlive hstep).offer (fun hd => hstep.fail (by simpa using hd)) accept, ?_,
        by simp⟩
      rw [← hstep.wpdu]
      unfold Connection.offer
      split
      · split <;> rfl
      · rfl

end ReceiverOk

end

end Yfs.Net
