import Mathlib.Data.Nat.Digits.Defs
import Yfs.Extents.Client
import Yfs.Lib.Tokens

/-!
# Directories of the file system client

`yfs_client` keeps a directory in the extent of its inode number, as one string: for each entry the
inode number in decimal, a slash, the name, a slash. `create`, `lookup` and `unlink` search this
string for the name between two slashes.

The operations are written over any extent store. `none` says that a call does not return: an
assertion fails, or the thread waits for a lock that it holds itself.
-/

namespace Yfs.Fs

open Yfs.Lib
open Yfs.Rpc (Bytes)

/-- `yfs_client::inum`. -/
abbrev Inum := UInt64

/-- `yfs_client::xxstatus`. -/
inductive Status where
  | ok
  | rpcerr
  | noent
  | ioerr
  | exist
  deriving DecidableEq, Repr

/-- The status of an extent operation, handed on as it is. -/
def Status.ofExtent : Extents.Status → Status
  | .ok => .ok
  | .rpcerr => .rpcerr
  | .noent => .noent
  | .ioerr => .ioerr

/-- The operations of an extent store that `yfs_client` uses. -/
structure ExtentOps (σ : Type) where
  get : σ → Inum → Extents.Status × Bytes × σ
  put : σ → Inum → Bytes → Extents.Status × σ
  remove : σ → Inum → Extents.Status × σ

/-! ## Inode numbers -/

/-- `yfs_client::isfile`. -/
def isfile (i : Inum) : Bool := i &&& 0x80000000 ≠ 0

/-- `yfs_client::isdir`. -/
def isdir (i : Inum) : Bool := !isfile i

/-- `yfs_client::rand_inum`, where `rand()` gives `rand`. -/
def randInum (isfile : Bool) (rand : UInt32) : Inum :=
  ((rand &&& 0x7fffffff) ||| (if isfile then 0x80000000 else 0)).toUInt64

/-- `yfs_client::filename`: the number in decimal. -/
def filename (i : Inum) : Bytes :=
  if i = 0 then [48] else (Nat.digits 10 i.toNat).reverse.map fun d => UInt8.ofNat (48 + d)

/-- `isspace` in the C locale. -/
def isSpace (b : UInt8) : Bool := b = 32 || 9 ≤ b && b ≤ 13

def isDigit (b : UInt8) : Bool := 48 ≤ b && b ≤ 57

/-- The number a string of digits stands for. -/
def decimal (ds : Bytes) : Nat := ds.foldl (fun v d => 10 * v + (d.toNat - 48)) 0

/-- `yfs_client::n2i`: white space, a sign, and digits as far as there are any. A number that is too
large gives the largest one, and no digits give 0. If there is nothing after the white space, nothing
is extracted, and `finum`, which is not initialised, keeps what it holds: `junk`. -/
def n2i (junk : Inum) (n : Bytes) : Inum :=
  let n := n.dropWhile isSpace
  if n = [] then junk
  else
    let neg := n.head? = some 45
    let v := decimal ((if neg ∨ n.head? = some 43 then n.tail else n).takeWhile isDigit)
    if 2 ^ 64 ≤ v then 0xffffffffffffffff
    else if neg then -UInt64.ofNat v else UInt64.ofNat v

/-! ## The operations -/

/-- The character `/`. -/
def slash : UInt8 := 47

/-- `"/" + name + "/"`. -/
def pattern (name : Bytes) : Bytes := slash :: (name ++ [slash])

/-- `found - 1` in a `size_t`. -/
def before (found : Nat) : Nat := if found = 0 then 2 ^ 64 - 1 else found - 1

/-- The start of the token that ends at `found`. -/
def leftOf (b : Bytes) (found : Nat) : Nat := (rfind slash b (before found)).elim 0 (· + 1)

variable {σ : Type} (E : ExtentOps σ) (parent : Inum)

/-- `yfs_client::create`, where `rand()` gives `rand`. The inode number is written to the reference
parameter when it has been chosen. -/
def create (name : Bytes) (isfile : Bool) (rand : UInt32) (s : σ) :
    Option (σ × Status × Option Inum) :=
  if isdir parent then
    let (rs, b, s) := E.get s parent
    if rs ≠ .ok then some (s, .ofExtent rs, none)
    else if (find (pattern name) b).isSome then some (s, .exist, none)
    else
      let num := randInum isfile rand
      let ino := num &&& 0xffffffff
      let b := b ++ (filename num ++ pattern name)
      -- the lock of `num` is acquired under the lock of `parent`
      if num = parent then none
      else
        let (rs, s) := E.put s num []
        if rs ≠ .ok then some (s, .ofExtent rs, some ino)
        else
          let (rs, s) := E.put s parent b
          if rs ≠ .ok then some (s, .ofExtent rs, some ino) else some (s, .ok, some ino)
  else some (s, .noent, none)

/-- `yfs_client::lookup`. An empty name is found without an inode number. -/
def lookup (name : Bytes) (junk : Inum) (s : σ) : Option (σ × Bool × Option Inum) :=
  if isdir parent then
    if name = [] then some (s, true, none)
    else
      let (rs, b, s) := E.get s parent
      if rs ≠ .ok then some (s, false, none)
      else
        match find (pattern name) b with
        | none => some (s, false, none)
        | some found =>
            let left := leftOf b found
            -- the two assertions
            if found = 0 ∨ found ≤ left then none
            else some (s, true, some (n2i junk (substr b left (found - left))))
  else some (s, false, none)

/-- `yfs_client::unlink`. -/
def unlink (name : Bytes) (junk : Inum) (s : σ) : Option (σ × Status) :=
  if isdir parent then
    let (rs, b, s) := E.get s parent
    if rs ≠ .ok then some (s, .noent)
    else
      match find (pattern name) b with
      | none => some (s, .noent)
      | some found =>
          let left := leftOf b found
          if found ≤ left then none
          else
            let ino := n2i junk (substr b left (found - left))
            -- the lock of `ino` is acquired under the lock of `parent`
            if ino = parent then none
            else
              let (rs, s) := E.remove s ino
              if rs ≠ .ok then some (s, .noent)
              else
                let stop := found + (pattern name).length
                let after := (if left ≠ 0 then substr b 0 left else []) ++
                  (if stop < b.length then substr b stop (b.length - stop) else [])
                let (rs, s) := E.put s parent after
                if rs ≠ .ok then some (s, .noent) else some (s, .ok)
  else some (s, .noent)

end Yfs.Fs
