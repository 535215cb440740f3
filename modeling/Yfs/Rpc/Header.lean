import Yfs.Lib.Word

/-!
# Headers, requests and replies

The `int` and `unsigned int` fields of the headers that are only compared for equality or as
unsigned numbers are `UInt32`; `ret` is compared with 0 and is an `Int32`.
-/

namespace Yfs.Rpc

open Yfs.Lib

abbrev Bytes := List UInt8

/-! ## `rpc_const` -/

/-- The handler number reserved for bind. -/
def bindProc : UInt32 := 1

def timeoutFailure : Int32 := -1
def unmarshalArgsFailure : Int32 := -2
def atmostonceFailure : Int32 := -4
def oldsrvFailure : Int32 := -5
def bindFailure : Int32 := -6
def cancelFailure : Int32 := -7

/-! ## Messages -/

structure ReqHeader where
  xid : UInt32
  proc : UInt32
  cltNonce : UInt32
  srvNonce : UInt32
  xidRep : UInt32
  deriving DecidableEq, Repr

structure ReplyHeader where
  xid : UInt32
  ret : Int32
  deriving DecidableEq, Repr

/-- A request as it is sent: the header and the marshalled arguments. -/
structure Request where
  hdr : ReqHeader
  args : Bytes
  deriving DecidableEq, Repr

/-- A reply as it is sent: the header and the marshalled result. -/
structure Reply where
  hdr : ReplyHeader
  body : Bytes
  deriving DecidableEq, Repr

/-- What `<<` puts into an empty message for one `int`. -/
def intBody (x : UInt32) : Bytes := [byte x 24, byte x 16, byte x 8, byte x 0]

/-- What `>>` reads from a message for one `int`, if this is all there is. -/
def readInt : Bytes → Option UInt32
  | [a, b, c, d] => some (word a b c d)
  | _ => none

@[simp] theorem readInt_intBody (x : UInt32) : readInt (intBody x) = some x := by
  simp [readInt, intBody]

end Yfs.Rpc
