import Yfs.Wire.Decode

/-!
# Connections

A `connection` sends and receives PDUs over one TCP socket. Several threads may call `send` at once;
one of them at a time has its PDU in the write slot `wpdu_`, and the rest of a PDU that `send` could
not write at once is written by `write_cb` when the socket is ready again. `read_cb` collects a PDU in
`rpdu_`, over as many calls as it takes, and offers it to the manager of the connection until the
manager accepts it.

Each function here is one section under `m_`. What a system call returns is an argument, and `none`
says that the process stops there (`VERIFY`, or memory that is not the buffer's is overwritten) or
that the system call cannot return this.
-/

namespace Yfs.Net

open Yfs.Lib
open Yfs.Rpc (Bytes intBody readInt)
open Yfs.Wire (maxPdu)

/-- `connection::charbuf`. For a PDU that is being read, `buf` is the part that is there. -/
structure Charbuf where
  buf : Option Bytes := none
  sz : Int := 0
  solong : Int := 0
  deriving DecidableEq, Repr

/-- `connection`. -/
structure Connection where
  dead : Bool := false
  wpdu : Charbuf := {}
  rpdu : Charbuf := {}
  waiters : Nat := 0
  deriving DecidableEq, Repr

/-- What `write` returns. -/
inductive WriteResult where
  | wrote (n : Nat)
  | again
  | failed
  deriving DecidableEq, Repr

/-- What `read` returns. -/
inductive ReadResult where
  | got (n : Nat)
  /-- The end of the stream; `stale` says that `errno` happens to be EAGAIN. -/
  | eof (stale : Bool)
  | again
  | failed
  deriving DecidableEq, Repr

/-- Where a call of `send` is. -/
inductive SendPc where
  /-- Waits for `send_wait_`. -/
  | waiting
  /-- Waits for `send_complete_`. -/
  | completing
  /-- `writepdu` has failed, and `m_` is released for `block_remove_fd`. -/
  | removing
  | returned (ret : Bool)
  deriving DecidableEq, Repr

namespace Connection

/-! ## Writing -/

/-- The buffer with its size in the first four bytes, in network order. -/
def stamp (sz : Int) (buf : Bytes) : Bytes := intBody (UInt32.ofInt sz) ++ buf.drop 4

/-- `connection::writepdu`, with the bytes that go onto the stream. -/
def writepdu (c : Connection) (r : WriteResult) : Option (Connection × Bool × Bytes) :=
  let w := c.wpdu
  if w.solong < 0 then none
  else if w.solong = w.sz then some (c, true, [])
  else
    let w := if w.solong = 0 then { w with buf := w.buf.map (stamp w.sz) } else w
    match r with
    | .wrote n =>
        let rest := ((w.buf.getD []).drop w.solong.toNat).take (w.sz - w.solong).toNat
        if n ≤ rest.length then
          some ({ c with wpdu := { w with solong := w.solong + n } }, true, rest.take n)
        else none
    | .again => some ({ c with wpdu := w }, true, [])
    | .failed => some ({ c with wpdu := { w with solong := -1, sz := 0 } }, false, [])

/-- The end of `send`. -/
def finishSend (c : Connection) : Connection × SendPc :=
  ({ c with wpdu := {} }, .returned (!c.dead && c.wpdu.solong = c.wpdu.sz))

/-- `send` from the second loop on. -/
def awaitComplete (c : Connection) : Connection × SendPc :=
  if c.dead = false ∧ 0 ≤ c.wpdu.solong ∧ c.wpdu.solong < c.wpdu.sz then (c, .completing)
  else c.finishSend

/-- `send` from the first loop on, with the bytes that go onto the stream. (In a lossy test the socket
may be shut down here, and then `write` fails.) -/
def awaitSlot (c : Connection) (b : Bytes) (r : WriteResult) : Option (Connection × SendPc × Bytes) :=
  if c.dead = false ∧ c.wpdu.buf ≠ none then some (c, .waiting, [])
  else
    let c := { c with waiters := c.waiters - 1 }
    if c.dead then some (c, .returned false, [])
    else do
      let (c, succ, out) ←
        { c with wpdu := { buf := some b, sz := b.length, solong := 0 } }.writepdu r
      if succ then
        let (c, pc) := c.awaitComplete
        return (c, pc, out)
      else return ({ c with dead := true }, .removing, out)

/-- `connection::send` up to where it waits. -/
def send (c : Connection) (b : Bytes) (r : WriteResult) : Option (Connection × SendPc × Bytes) :=
  { c with waiters := c.waiters + 1 }.awaitSlot b r

/-- `connection::write_cb`. -/
def writeCb (c : Connection) (r : WriteResult) : Option (Connection × Bytes) :=
  if c.dead then none
  else if c.wpdu.sz = 0 then some (c, [])
  else do
    let (c, succ, out) ← c.writepdu r
    return ({ c with dead := !succ }, out)

/-! ## Reading -/

/-- The second part of `connection::readpdu`: as much of the PDU as is there. `input` is the part of
the stream that was not read yet. The result says how much of it was. -/
def readBody (c : Connection) (input : Bytes) : ReadResult → Option (Connection × Bool × Nat)
  | .got n =>
      if 0 < n ∧ n ≤ (c.rpdu.sz - c.rpdu.solong).toNat ∧ n ≤ input.length then
        some ({ c with rpdu := { c.rpdu with
          buf := c.rpdu.buf.map (· ++ input.take n), solong := c.rpdu.solong + n } }, true, n)
      else none
  | .again | .eof true => some (c, true, 0)
  | .eof false | .failed => some ({ c with rpdu := {} }, false, 0)

/-- The size that the first four bytes of a PDU give, as an `int`. -/
def pduSize (bs : Bytes) : Int := ((readInt bs).getD 0).toInt32.toInt

/-- `connection::readpdu`. -/
def readpdu (c : Connection) (input : Bytes) (r₁ r₂ : ReadResult) :
    Option (Connection × Bool × Nat) :=
  if c.rpdu.sz ≠ 0 then c.readBody input r₂
  else
    match r₁ with
    | .eof _ | .failed => some (c, false, 0)
    | .again => none
    | .got n =>
        if 0 < n ∧ n ≤ 4 ∧ n ≤ input.length then
          if n ≠ 4 then some (c, false, n)
          else
            let sz := pduSize (input.take 4)
            if sz > maxPdu then some (c, false, 4)
            -- less than the four bytes that are there: `malloc` gives too little, or nothing
            else if c.rpdu.buf ≠ none ∨ sz < 4 then none
            else do
              let (c, succ, n) ← { c with rpdu := ⟨some (input.take 4), sz, 4⟩ }.readBody
                (input.drop 4) r₂
              return (c, succ, 4 + n)
        else none

/-- The end of `connection::read_cb`: a PDU that is complete is offered to the manager, who takes it
if `accept`. -/
def offer (c : Connection) (accept : Bool) : Connection × Option Bytes :=
  match c.rpdu.buf with
  | some b =>
      if c.rpdu.sz = c.rpdu.solong ∧ accept = true then ({ c with rpdu := {} }, some b) else (c, none)
  | none => (c, none)

/-- `connection::read_cb`, with the number of bytes read and the PDU that was accepted. -/
def readCb (c : Connection) (input : Bytes) (r₁ r₂ : ReadResult) (accept : Bool) :
    Option (Connection × Nat × Option Bytes) :=
  if c.dead then some (c, 0, none)
  else do
    let (c, succ, n) ←
      if c.rpdu.buf = none ∨ c.rpdu.solong < c.rpdu.sz then c.readpdu input r₁ r₂
      else some (c, true, 0)
    let (c, pdu) := { c with dead := !succ }.offer accept
    return (c, n, pdu)

/-- `connection::closeconn`. -/
def closeconn (c : Connection) : Connection := { c with dead := true }

end Connection

end Yfs.Net
