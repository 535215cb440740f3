import Yfs.Lib.System
import Yfs.Net.Connection

/-!
# Two connections and the stream between them

The two ends of one TCP connection. On each end any number of threads call `send` with buffers of 24
bytes up to MAX_PDU, the poll thread calls `write_cb` and `read_cb`, and someone may call `closeconn`.
What an end writes is a stream of bytes, and the other end reads it from the front, in pieces of any
size; what a system call returns is up to the action. A waiting thread may be woken at any time.
-/

namespace Yfs.Net

open Yfs.Lib
open Yfs.Rpc (Bytes)
open Yfs.Wire (maxPdu)

/-- A call of `send`. -/
structure Call where
  buf : Bytes
  pc : SendPc
  deriving DecidableEq, Repr

/-- One end of a connection, with what it has written so far and how much of it the other end has
read. -/
structure End where
  conn : Connection := {}
  calls : List Call := []
  out : Bytes := []
  taken : Nat := 0
  deriving DecidableEq, Repr

inductive LinkAction where
  | send (e : Bool) (b : Bytes) (r : WriteResult)
  /-- A call that waits for `send_wait_` wakes up. -/
  | wakeSlot (e : Bool) (i : Nat) (r : WriteResult)
  /-- A call that waits for `send_complete_` wakes up. -/
  | wakeComplete (e : Bool) (i : Nat)
  /-- A call that has failed takes `m_` again. -/
  | relock (e : Bool) (i : Nat)
  | writeCb (e : Bool) (r : WriteResult)
  | readCb (e : Bool) (r₁ r₂ : ReadResult) (accept : Bool)
  | closeconn (e : Bool)

/-- What an observer of the two ends sees. -/
inductive LinkEvent where
  /-- Call `i` at end `e` has got the write slot. -/
  | started (e : Bool) (i : Nat)
  | returned (e : Bool) (i : Nat) (ret : Bool)
  /-- The manager at end `e` has accepted a PDU. -/
  | accepted (e : Bool) (pdu : Bytes)
  deriving DecidableEq, Repr

/-- The state of the two ends. -/
abbrev Link := Bool → End

/-- Call `i` at end `e` comes to a place. -/
def SendPc.events (e : Bool) (i : Nat) : SendPc → List LinkEvent
  | .returned ret => [.returned e i ret]
  | _ => []

namespace Link

/-- A call of `send` goes on from the first loop: it has got the slot unless it waits, or finds the
connection dead. -/
def slotEvents (e : Bool) (i : Nat) (dead : Bool) (pc : SendPc) : List LinkEvent :=
  (if dead ∨ pc = .waiting then [] else [.started e i]) ++ pc.events e i

/-- Change one end. -/
def set (w : Link) (e : Bool) (x : End) : Link := Function.update w e x

def next (w : Link) : LinkAction → Option (Link × List LinkEvent)
  | .send e b r => do
      let x := w e
      if 24 ≤ b.length ∧ b.length ≤ maxPdu then
        let (conn, pc, bs) ← x.conn.send b r
        return (w.set e { x with conn, calls := x.calls ++ [⟨b, pc⟩], out := x.out ++ bs },
          slotEvents e x.calls.length x.conn.dead pc)
      else none
  | .wakeSlot e i r => do
      let x := w e
      let call ← x.calls[i]?
      let .waiting := call.pc | none
      let (conn, pc, bs) ← x.conn.awaitSlot call.buf r
      return (w.set e { x with conn, calls := x.calls.set i ⟨call.buf, pc⟩, out := x.out ++ bs },
        slotEvents e i x.conn.dead pc)
  | .wakeComplete e i => do
      let x := w e
      let call ← x.calls[i]?
      let .completing := call.pc | none
      let (conn, pc) := x.conn.awaitComplete
      return (w.set e { x with conn, calls := x.calls.set i ⟨call.buf, pc⟩ }, pc.events e i)
  | .relock e i => do
      let x := w e
      let call ← x.calls[i]?
      let .removing := call.pc | none
      let (conn, pc) := x.conn.finishSend
      return (w.set e { x with conn, calls := x.calls.set i ⟨call.buf, pc⟩ }, pc.events e i)
  | .writeCb e r => do
      let x := w e
      let (conn, bs) ← x.conn.writeCb r
      return (w.set e { x with conn, out := x.out ++ bs }, [])
  | .readCb e r₁ r₂ accept => do
      let x := w e
      let y := w (!e)
      let (conn, n, pdu) ← x.conn.readCb (y.out.drop y.taken) r₁ r₂ accept
      return ((w.set e { x with conn }).set (!e) { y with taken := y.taken + n },
        pdu.toList.map (.accepted e))
  | .closeconn e => some (w.set e { w e with conn := (w e).conn.closeconn }, [])

end Link

/-- One TCP connection. -/
def linkSystem : System Link LinkAction LinkEvent where
  init w := w = fun _ => {}
  next := Link.next

end Yfs.Net
