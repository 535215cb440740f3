import Yfs.Rpc.Header

/-!
# The extent server

`extent_server` keeps a map from extent ids to extents, and each of its four handlers reads and
writes the entry of one id under `mutex`. The functions here are the handlers on that entry: `none`
is an id that is not in the map. `now` is what `time(NULL)` returns.
-/

namespace Yfs.Extents

open Yfs.Rpc (Bytes)

/-- `extent_protocol::extentid_t`. -/
abbrev ExtentId := UInt64

/-- `extent_protocol::xxstatus`. -/
inductive Status where
  | ok
  | rpcerr
  | noent
  | ioerr
  deriving DecidableEq, Repr

/-- `extent_protocol::attr`. -/
structure Attr where
  atime : UInt32 := 0
  mtime : UInt32 := 0
  ctime : UInt32 := 0
  size : UInt32 := 0
  deriving DecidableEq, Repr

/-- `std::string::size()` in an `unsigned int`. -/
def size (buf : Bytes) : UInt32 := UInt32.ofNat buf.length

/-- `Extent`. -/
structure Extent where
  name : Bytes
  attr : Attr
  deriving DecidableEq, Repr

/-- What a call gives back: the status, and the reference parameter it has written, if any. -/
structure Answer where
  ret : Status
  buf : Bytes := []
  attr : Attr := {}
  deriving DecidableEq, Repr

/-- `extent_server::put`. -/
def serverPut (e : Option Extent) (buf : Bytes) (now : UInt32) : Answer × Option Extent :=
  let a : Attr := { mtime := now, ctime := now, atime := now, size := size buf }
  let a := match e with
    | some e => { a with atime := e.attr.atime }
    | none => a
  ({ ret := .ok }, some { name := buf, attr := a })

/-- `extent_server::get`. -/
def serverGet (e : Option Extent) (now : UInt32) : Answer × Option Extent :=
  match e with
  | none => ({ ret := .noent }, none)
  | some e =>
      ({ ret := .ok, buf := e.name }, some { e with attr := { e.attr with atime := now } })

/-- `extent_server::getattr`. -/
def serverGetattr (e : Option Extent) : Answer × Option Extent :=
  match e with
  | none => ({ ret := .noent }, none)
  | some e => ({ ret := .ok, attr := e.attr }, some e)

/-- `extent_server::remove`. -/
def serverRemove (e : Option Extent) : Answer × Option Extent :=
  match e with
  | none => ({ ret := .noent }, none)
  | some _ => ({ ret := .ok }, none)

end Yfs.Extents
