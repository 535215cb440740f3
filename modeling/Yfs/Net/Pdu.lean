import Yfs.Lib.Frame
import Yfs.Net.Connection

/-!
# PDUs are self-delimiting

The first four bytes of a PDU say how long it is, and `send` writes them. So a stream of PDUs can be
cut in one way only.
-/

namespace Yfs.Net

open Yfs.Lib
open Yfs.Rpc (Bytes intBody readInt readInt_intBody)
open Yfs.Wire (maxPdu)
open Connection (stamp pduSize)

/-- The first four bytes of a PDU are its size. -/
def pduFraming : Framing UInt8 where
  head := 4
  size bs := ((readInt bs).getD 0).toNat
  pos := by decide

/-- The PDU that `send` makes of a buffer. -/
def pdu (b : Bytes) : Bytes := stamp b.length b

/-- The sizes that a PDU may have. -/
def Sendable (b : Bytes) : Prop := 24 ≤ b.length ∧ b.length ≤ maxPdu

section
variable {b : Bytes}

theorem length_stamp {n : Int} (hb : 4 ≤ b.length) : (stamp n b).length = b.length := by
  simp only [stamp, intBody, List.length_append, List.length_cons, List.length_nil,
    List.length_drop]
  omega

theorem length_pdu (hb : Sendable b) : (pdu b).length = b.length :=
  length_stamp (by have := hb.1; omega)

/-- The size is written once more if the first `write` wrote nothing. -/
theorem stamp_pdu (b : Bytes) : stamp b.length (pdu b) = pdu b := rfl

theorem isFrame_pdu (hb : Sendable b) : pduFraming.IsFrame (pdu b) := by
  have hlen := length_pdu hb
  obtain ⟨hmin, hmax⟩ := hb
  have hsize : (UInt32.ofInt b.length).toNat = b.length := by
    have hlt : b.length < 2 ^ 32 := hmax.trans_lt (by decide)
    rw [UInt32.ofInt, UInt32.toNat_ofNat']
    omega
  refine ⟨by rw [hlen]; exact le_trans (by decide) hmin, ?_⟩
  have htake : (pdu b).take 4 = intBody (UInt32.ofInt b.length) := rfl
  show ((readInt ((pdu b).take 4)).getD 0).toNat = _
  rw [htake, readInt_intBody, hlen]
  exact hsize

/-- A size that `readpdu` accepts is the one in the frame. -/
theorem size_of_pduSize {bs : Bytes} {n : Int} (h : pduSize bs = n) (hn : 0 ≤ n) :
    (pduFraming.size bs : Int) = n := by
  unfold pduSize at h
  rw [toInt_toInt32] at h
  have hlt := ((readInt bs).getD 0).toNat_lt
  show (((readInt bs).getD 0).toNat : Int) = n
  split at h <;> omega

/-- The size that `readpdu` finds in a frame is its length. -/
theorem pduSize_take (hframe : pduFraming.IsFrame b) (hb : Sendable b) :
    pduSize (b.take 4) = b.length := by
  have hsize : ((readInt (b.take 4)).getD 0).toNat = b.length := hframe.2
  have hlt : b.length < 2 ^ 31 := hb.2.trans_lt (by decide)
  unfold pduSize
  rw [toInt_toInt32, hsize, if_pos hlt]

end

end Yfs.Net
