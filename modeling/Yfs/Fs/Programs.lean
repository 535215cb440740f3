import Yfs.Extents.Answers
import Yfs.Fs.File
import Yfs.Lib.TwoPhase

/-!
# The calls of the file system client as programs

A call of `yfs_client` makes requests to the lock client and to the extent client, one after the
other. `Program` keeps their order, with the constructors and destructors of the lock guards where
they are in the code; `YfsCall.program` gives the program of each call. When nobody else makes
requests, a program does on a map of extents what the call does there (`run_program`), and all
programs are two-phase (`growing_program`): a guard is destroyed when the call returns, after its
last use of an extent.

`unlink` is left out. A removed extent can still be read from the cache of the client that removed it,
so what `unlink` has done is not the same for all clients.
-/

namespace Yfs.Fs

open Yfs.Lib
open Yfs.Rpc (Bytes)
open Yfs.Extents (contents)

/-- A call of `yfs_client` with its arguments. -/
inductive YfsCall where
  /-- In `create`, `rand()` gives `rand`. -/
  | create (parent : Inum) (name : Bytes) (isfile : Bool) (rand : UInt32)
  /-- In `lookup`, the number that `n2i` does not initialise holds `junk`. -/
  | lookup (parent : Inum) (name : Bytes) (junk : Inum)
  | read (ino : Inum) (size : UInt64) (off : Int64)
  | write (ino : Inum) (buf : Bytes) (off : Int64)
  | setattr (fileno : Inum) (stSize : Int64)
  | getdata (ino : Inum)
  deriving DecidableEq, Repr

/-- What a call returns, and what it leaves in its reference parameters. -/
inductive YfsResult where
  | create (ret : Status) (ino : Option Inum)
  | lookup (found : Bool) (ino : Option Inum)
  | read (ret : Status) (buf : Option Bytes)
  /-- Of `write` and `setattr`. -/
  | status (ret : Status)
  | getdata (ret : Extents.Status) (buf : Bytes)
  deriving DecidableEq, Repr

/-- The requests a call makes. -/
inductive Program where
  | ret (r : YfsResult)
  /-- An assertion fails, or an exception is thrown that nobody catches. -/
  | fault
  | acquire (lid : Inum) (next : Program)
  | release (lid : Inum) (next : Program)
  | get (eid : Inum) (next : Extents.Status → Bytes → Program)
  | put (eid : Inum) (buf : Bytes) (next : Extents.Status → Program)

namespace Program

/-- `yfs_client::create`. -/
def create (parent : Inum) (name : Bytes) (isfile : Bool) (rand : UInt32) : Program :=
  if isdir parent then
    .acquire parent <| .get parent fun rs b =>
      if rs ≠ .ok then .release parent (.ret (.create (.ofExtent rs) none))
      else if (find (pattern name) b).isSome then .release parent (.ret (.create .exist none))
      else
        let num := randInum isfile rand
        let ino := num &&& 0xffffffff
        let b := b ++ (filename num ++ pattern name)
        let done := fun ret => .release num (.release parent (.ret (.create ret (some ino))))
        .acquire num <| .put num [] fun rs =>
          if rs ≠ .ok then done (.ofExtent rs)
          else .put parent b fun rs => if rs ≠ .ok then done (.ofExtent rs) else done .ok
  else .ret (.create .noent none)

/-- `yfs_client::lookup`. -/
def lookup (parent : Inum) (name : Bytes) (junk : Inum) : Program :=
  if isdir parent then
    if name = [] then .ret (.lookup true none)
    else .acquire parent <| .get parent fun rs b =>
      if rs ≠ .ok then .release parent (.ret (.lookup false none))
      else
        match find (pattern name) b with
        | none => .release parent (.ret (.lookup false none))
        | some found =>
            let left := leftOf b found
            if found = 0 ∨ found ≤ left then .fault
            else
              let ino := n2i junk (substr b left (found - left))
              .release parent (.ret (.lookup true (some ino)))
  else .ret (.lookup false none)

/-- `yfs_client::read`. -/
def read (ino : Inum) (size : UInt64) (off : Int64) : Program :=
  .acquire ino <| .get ino fun rs buf =>
    if rs ≠ .ok then .release ino (.ret (.read (.ofExtent rs) none))
    else
      match readBytes buf size off with
      | .error _ => .fault
      | .ok out => .release ino (.ret (.read .ok (some out)))

/-- The common part of `write` and `setattr`. -/
def modify (ino : Inum) (f : Bytes → Except Fault Bytes) : Program :=
  .acquire ino <| .get ino fun rs buf =>
    if rs ≠ .ok then .release ino (.ret (.status (.ofExtent rs)))
    else
      match f buf with
      | .error _ => .fault
      | .ok after => .put ino after fun rs => .release ino (.ret (.status (.ofExtent rs)))

/-- `yfs_client::write`. -/
def write (ino : Inum) (buf : Bytes) (off : Int64) : Program :=
  if off < 0 then .ret (.status .noent) else modify ino (writeBytes · buf off)

/-- `yfs_client::setattr`. -/
def setattr (fileno : Inum) (stSize : Int64) : Program := modify fileno (resize · stSize)

/-- `yfs_client::getdata`. -/
def getdata (ino : Inum) : Program :=
  .acquire ino <| .get ino fun rs buf => .release ino (.ret (.getdata rs buf))

/-- The program as a transaction on the contents of the extents. -/
def txn : Program → Txn Inum (Option Bytes) YfsResult
  | ret r => .ret r
  | fault => .fail
  | acquire lid next => .acquire lid next.txn
  | release lid next => .release lid next.txn
  | get eid next => .read eid fun d => (next (contents d).1 (contents d).2).txn
  | put eid buf next => .write eid (some buf) (next .ok).txn

end Program

namespace YfsCall

def program : YfsCall → Program
  | create parent name isfile rand => .create parent name isfile rand
  | lookup parent name junk => .lookup parent name junk
  | read ino size off => .read ino size off
  | write ino buf off => .write ino buf off
  | setattr fileno stSize => .setattr fileno stSize
  | getdata ino => .getdata ino

/-- What a call does to a map of extents, all at once. `none` says that it does not return. -/
def exec (m : Inum → Option Bytes) : YfsCall → Option (YfsResult × (Inum → Option Bytes))
  | create parent name isfile rand =>
      (Fs.create mapOps parent name isfile rand m).map fun (m, ret, ino) => (.create ret ino, m)
  | lookup parent name junk =>
      (Fs.lookup mapOps parent name junk m).map fun (m, found, ino) => (.lookup found ino, m)
  | read ino size off =>
      (Fs.read mapOps ino size off m).toOption.map fun (m, ret, buf) => (.read ret buf, m)
  | write ino buf off =>
      (Fs.write mapOps ino buf off m).toOption.map fun (m, ret) => (.status ret, m)
  | setattr fileno stSize =>
      (Fs.setattr mapOps fileno stSize m).toOption.map fun (m, ret) => (.status ret, m)
  | getdata ino =>
      let (ret, buf, m) := mapOps.get m ino
      some (.getdata ret buf, m)

end YfsCall

/-! ## The programs are two-phase -/

section

variable {H : Inum → Bool} {i j : Inum} {r : YfsResult} {p : Program}

theorem growing_get {f : Extents.Status → Bytes → Program} (hi : H i = true)
    (h : ∀ rs buf, (f rs buf).txn.Growing H) : (Program.get i f).txn.Growing H :=
  ⟨hi, fun _ => h _ _⟩

theorem growing_put {buf : Bytes} {f : Extents.Status → Program} (hi : H i = true)
    (h : ∀ rs, (f rs).txn.Growing H) : (Program.put i buf f).txn.Growing H :=
  ⟨hi, h _⟩

/-- One lock is held, and given back. -/
theorem growing_release : (Program.release i (.ret r)).txn.Growing
    (Function.update (fun _ => false) i true) := by
  refine ⟨r, Function.update_self .., rfl, fun k => ?_⟩
  rw [Function.update_idem]
  simp [Function.update_apply]

/-- Two locks are held, and given back in the other order. -/
theorem growing_release_two (hj : Function.update (fun _ => false) i true j = false) :
    (Program.release j (.release i (.ret r))).txn.Growing
      (Function.update (Function.update (fun _ => false) i true) j true) := by
  have hne : i ≠ j := by
    rintro rfl
    simp at hj
  refine ⟨r, Function.update_self .., ?_, rfl, fun k => ?_⟩
  · rw [Function.update_idem, Function.update_of_ne hne, Function.update_self]
  · simp only [Function.update_apply]
    grind

theorem growing_modify (f : Bytes → Except Fault Bytes) :
    (Program.modify i f).txn.Growing fun _ => false := by
  intro _
  refine growing_get (Function.update_self ..) fun rs buf => ?_
  split
  · exact growing_release
  · split
    · trivial
    · exact growing_put (Function.update_self ..) fun _ => growing_release

theorem growing_create (parent : Inum) (name : Bytes) (isfile : Bool) (rand : UInt32) :
    (Program.create parent name isfile rand).txn.Growing fun _ => false := by
  unfold Program.create
  split
  · intro _
    refine growing_get (Function.update_self ..) fun rs b => ?_
    split
    · exact growing_release
    · split
      · exact growing_release
      · intro hnum
        refine growing_put (Function.update_self ..) fun rs => ?_
        split
        · exact growing_release_two hnum
        · have hne : parent ≠ randInum isfile rand := by
            intro h
            rw [← h, Function.update_self] at hnum
            cases hnum
          refine growing_put ?_ fun rs => ?_
          · rw [Function.update_of_ne hne, Function.update_self]
          · split <;> exact growing_release_two hnum
  · exact fun _ => rfl

theorem growing_lookup (parent : Inum) (name : Bytes) (junk : Inum) :
    (Program.lookup parent name junk).txn.Growing fun _ => false := by
  unfold Program.lookup
  split
  · split
    · exact fun _ => rfl
    · intro _
      refine growing_get (Function.update_self ..) fun rs b => ?_
      split
      · exact growing_release
      · split
        · exact growing_release
        · dsimp only
          split
          · trivial
          · exact growing_release
  · exact fun _ => rfl

theorem growing_program (c : YfsCall) : c.program.txn.Growing fun _ => false := by
  cases c with
  | create parent name isfile rand => exact growing_create parent name isfile rand
  | lookup parent name junk => exact growing_lookup parent name junk
  | read ino size off =>
      intro _
      refine growing_get (Function.update_self ..) fun rs buf => ?_
      split
      · exact growing_release
      · split
        · trivial
        · exact growing_release
  | write ino buf off =>
      show (Program.write ino buf off).txn.Growing _
      unfold Program.write
      split
      · exact fun _ => rfl
      · exact growing_modify _
  | setattr fileno stSize => exact growing_modify _
  | getdata ino =>
      intro _
      exact growing_get (Function.update_self ..) fun rs buf => growing_release

end

/-! ## The programs do what the calls do -/

section

variable {H : Inum → Bool} {m : Inum → Option Bytes} {i : Inum} {r : YfsResult}

theorem mapOps_get (m : Inum → Option Bytes) (i : Inum) :
    mapOps.get m i = ((contents (m i)).1, (contents (m i)).2, m) := by
  simp only [mapOps]
  cases m i <;> rfl

@[simp] theorem run_ret : (Program.ret r).txn.run H m = some (r, m) := rfl

@[simp] theorem run_fault : Program.fault.txn.run H m = none := rfl

theorem run_acquire {p : Program} (h : H i = false) :
    (Program.acquire i p).txn.run H m = p.txn.run (Function.update H i true) m := by
  simp [Program.txn, Txn.run, h]

@[simp] theorem run_release {p : Program} :
    (Program.release i p).txn.run H m = p.txn.run (Function.update H i false) m := rfl

@[simp] theorem run_get {f : Extents.Status → Bytes → Program} :
    (Program.get i f).txn.run H m = (f (contents (m i)).1 (contents (m i)).2).txn.run H m := rfl

@[simp] theorem run_put {buf : Bytes} {f : Extents.Status → Program} :
    (Program.put i buf f).txn.run H m = (f .ok).txn.run H (Function.update m i (some buf)) := rfl

theorem run_modify (f : Bytes → Except Fault Bytes) :
    ((Fs.modify mapOps i f m).toOption.map fun (m, ret) => (YfsResult.status ret, m)) =
      (Program.modify i f).txn.run (fun _ => false) m := by
  rw [Program.modify, run_acquire rfl, run_get, Fs.modify, mapOps_get]
  generalize contents (m i) = d
  dsimp only
  split
  · rfl
  · cases f d.2 <;> rfl

theorem run_read (size : UInt64) (off : Int64) :
    ((Fs.read mapOps i size off m).toOption.map fun (m, ret, buf) => (YfsResult.read ret buf, m)) =
      (Program.read i size off).txn.run (fun _ => false) m := by
  rw [Program.read, run_acquire rfl, run_get, Fs.read, mapOps_get]
  generalize contents (m i) = d
  dsimp only
  split
  · rfl
  · cases readBytes d.2 size off <;> rfl

theorem run_lookup (parent : Inum) (name : Bytes) (junk : Inum) :
    ((Fs.lookup mapOps parent name junk m).map fun (m, found, ino) => (YfsResult.lookup found ino, m)) =
      (Program.lookup parent name junk).txn.run (fun _ => false) m := by
  unfold Fs.lookup Program.lookup
  split
  · split
    · rfl
    · rw [run_acquire rfl, run_get, mapOps_get]
      generalize contents (m parent) = d
      dsimp only
      split
      · rfl
      · cases find (pattern name) d.2 with
        | none => rfl
        | some found =>
            dsimp only
            split <;> rfl
  · rfl

theorem run_create (parent : Inum) (name : Bytes) (isfile : Bool) (rand : UInt32) :
    ((Fs.create mapOps parent name isfile rand m).map fun (m, ret, ino) =>
        (YfsResult.create ret ino, m)) =
      (Program.create parent name isfile rand).txn.run (fun _ => false) m := by
  unfold Fs.create Program.create
  split
  · rw [run_acquire rfl, run_get, mapOps_get]
    generalize contents (m parent) = d
    dsimp only
    split
    · rfl
    · split
      · rfl
      · by_cases hnum : randInum isfile rand = parent
        · -- it waits for itself
          simp [hnum, Program.txn, Txn.run]
        · rw [if_neg hnum, run_acquire (by simp [hnum])]
          rfl
  · rfl

end

/-- Alone on a map of extents, the program of a call does what the call does. -/
theorem run_program (c : YfsCall) (m : Inum → Option Bytes) :
    c.exec m = c.program.txn.run (fun _ => false) m := by
  cases c with
  | create parent name isfile rand => exact run_create parent name isfile rand
  | lookup parent name junk => exact run_lookup parent name junk
  | read ino size off => exact run_read size off
  | write ino buf off =>
      show ((Fs.write mapOps ino buf off m).toOption.map fun (m, ret) => (YfsResult.status ret, m)) =
        (Program.write ino buf off).txn.run _ m
      unfold Fs.write Program.write
      split
      · rfl
      · exact run_modify _
  | setattr fileno stSize => exact run_modify _
  | getdata ino =>
      show _ = (Program.getdata ino).txn.run (fun _ => false) m
      rw [YfsCall.exec, mapOps_get, Program.getdata, run_acquire rfl]
      rfl

end Yfs.Fs
