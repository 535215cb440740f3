import Yfs.Extents.Requests
import Yfs.Fs.Text

/-!
# Calls on one directory by many clients

Any number of clients, each with any number of threads, call `create` and `getdata` on the directory
`parent`, over the caching locks and the extent caches of `cacheWorld`. A thread in a call is in the
middle of one request to its lock client or its extent client (`CallPc.request`) and goes on from
there with what the request returns (`CallPc.resume`). Without other threads that is the `create` of
the file system client (`create_alone`).
-/

namespace Yfs.Fs

open Yfs.Lib Yfs.Extents
open Yfs.Lock (Act)
open Yfs.Rpc (Bytes)

inductive Call where
  /-- `create(parent, name, true, ino)`, in which `rand()` gives `rand`. -/
  | create (name : Bytes) (rand : UInt32)
  /-- `getdata(parent, buf)`. -/
  | getdata
  deriving DecidableEq, Repr

/-- Where a thread is. -/
inductive CallPc where
  | idle
  /-- In the constructor of the lock guard of the directory. -/
  | lockParent (c : Call)
  /-- In `ec->get(parent, b)`. -/
  | get (c : Call)
  /-- In the constructor of the lock guard of the new file, with the text of the directory `b`. -/
  | lockNum (name : Bytes) (rand : UInt32) (b : Bytes)
  /-- In `ec->put(num, "")`. -/
  | putNum (name : Bytes) (rand : UInt32) (b : Bytes)
  /-- In `ec->put(parent, b)`. -/
  | putParent (name : Bytes) (rand : UInt32) (b : Bytes)
  /-- In the destructor of the lock guard of the new file, on the way to return `ret`. -/
  | unlockNum (name : Bytes) (rand : UInt32) (ret : Status)
  /-- In the destructor of the lock guard of the directory, on the way to return `ret`. -/
  | unlockParent (c : Call) (ret : Status)
  deriving DecidableEq, Repr

/-- What an observer sees. -/
inductive CallEvent where
  /-- Thread `a` calls `create`. -/
  | called (a : Act)
  /-- Thread `a` has put the text of the directory with a new entry. -/
  | stored (a : Act) (e : Entry)
  /-- `create` returns `ret` to thread `a`; the entry is its name and the inode number it has
  chosen. -/
  | returned (a : Act) (e : Entry) (ret : Status)
  /-- Thread `a` holds the lock of the directory and reads its text. -/
  | read (a : Act) (buf : Bytes)
  deriving DecidableEq, Repr

namespace CallPc

variable (parent : Inum)

/-- What the thread waits for. -/
def request : CallPc → Option ClientReq
  | .idle => none
  | .lockParent _ => some (.acquire parent)
  | .get _ => some (.get parent)
  | .lockNum _ rand _ => some (.acquire (randInum true rand))
  | .putNum _ rand _ => some (.put (randInum true rand) [])
  | .putParent name rand b =>
      some (.put parent (b ++ (filename (randInum true rand) ++ pattern name)))
  | .unlockNum _ rand _ => some (.release (randInum true rand))
  | .unlockParent _ _ => some (.release parent)

/-- Where the thread goes on when its request has returned `r`. -/
def resume (r : Answer) : CallPc → CallPc
  | .idle => .idle
  | .lockParent c => .get c
  | .get (.create name rand) =>
      if r.ret ≠ .ok then .unlockParent (.create name rand) (.ofExtent r.ret)
      else if (find (pattern name) r.buf).isSome then .unlockParent (.create name rand) .exist
      else .lockNum name rand r.buf
  | .get .getdata => .unlockParent .getdata (.ofExtent r.ret)
  | .lockNum name rand b => .putNum name rand b
  | .putNum name rand b =>
      if r.ret ≠ .ok then .unlockNum name rand (.ofExtent r.ret) else .putParent name rand b
  | .putParent name rand _ =>
      if r.ret ≠ .ok then .unlockNum name rand (.ofExtent r.ret) else .unlockNum name rand .ok
  | .unlockNum name rand ret => .unlockParent (.create name rand) ret
  | .unlockParent _ _ => .idle

/-- What an observer sees when the request has returned `r`. -/
def events (a : Act) (r : Answer) : CallPc → List CallEvent
  | .get .getdata => if r.ret = .ok then [.read a r.buf] else []
  | .putParent name rand _ =>
      if r.ret = .ok then [.stored a ⟨randInum true rand, name⟩] else []
  | .unlockParent (.create name rand) ret =>
      [.returned a ⟨randInum true rand &&& 0xffffffff, name⟩ ret]
  | _ => []

end CallPc

/-! ## All threads -/

/-- The locks and extents, and where the threads are. -/
structure DirState where
  world : ExtentId → CacheState
  pc : Act → CallPc

inductive DirAction where
  | call (a : Act) (c : Call)
  /-- Thread `a` takes a step in its request. -/
  | step (a : Act) (x : CacheAction)
  deriving DecidableEq, Repr

namespace DirState

variable (parent : Inum) (s : DirState)

def setPc (a : Act) (p : CallPc) : DirState := { s with pc := Function.update s.pc a p }

def setWorld (eid : ExtentId) (t : CacheState) : DirState :=
  { s with world := Function.update s.world eid t }

/-- An idle thread calls. Names are not empty and have no slash. -/
def call (a : Act) : Call → Option (DirState × List CallEvent)
  | .create name rand =>
      if name = [] ∨ slash ∈ name then none
      else if isdir parent then
        some (s.setPc a (.lockParent (.create name rand)), [.called a])
      else
        some (s, [.called a, .returned a ⟨randInum true rand &&& 0xffffffff, name⟩ .noent])
  | .getdata => some (s.setPc a (.lockParent .getdata), [])

def next : DirAction → Option (DirState × List CallEvent)
  | .call a c => if s.pc a = .idle then s.call parent a c else none
  | .step a x => do
      let q ← (s.pc a).request parent
      let (t, ans) ← q.step a (s.world q.id) x
      match ans with
      | none => return (s.setWorld q.id t, [])
      | some r =>
          return ((s.setWorld q.id t).setPc a ((s.pc a).resume r), (s.pc a).events a r)

end DirState

/-- The calls on `parent`, with the extents `x` on the server before the run. -/
def dirSystem (parent : Inum) (x : ExtentId → Option Extent) :
    System DirState DirAction CallEvent where
  init s := (cacheWorld x).init s.world ∧ ∀ a, s.pc a = .idle
  next := DirState.next parent

/-! ## A call alone -/

section

variable {σ : Type} (E : ExtentOps σ) (parent : Inum)

/-- A request to an extent store that nobody else uses, under locks that nobody else wants. -/
def exec (s : σ) : ClientReq → Answer × σ
  | .acquire _ | .release _ => ({ ret := .ok }, s)
  | .get eid =>
      let (ret, buf, s) := E.get s eid
      ({ ret, buf }, s)
  | .put eid buf =>
      let (ret, s) := E.put s eid buf
      ({ ret }, s)

/-- A thread makes its next request. -/
def alone (p : CallPc × σ) : CallPc × σ :=
  match p.1.request parent with
  | none => p
  | some q =>
      let (r, s) := exec E p.2 q
      (p.1.resume r, s)

/-- The requests of a thread that is alone do what `create` does. -/
theorem create_alone (hdir : isdir parent = true) (name : Bytes) (rand : UInt32) (s : σ) :
    ∃ n s' ret ino, create E parent name true rand s = some (s', ret, ino) ∧
      (alone E parent)^[n] (.lockParent (.create name rand), s) =
        (.unlockParent (.create name rand) ret, s') := by
  have hnum := randInum_ne hdir rand
  obtain ⟨rs, b, s₁, hget⟩ : ∃ rs b s₁, E.get s parent = (rs, b, s₁) := ⟨_, _, _, rfl⟩
  obtain ⟨rs₂, s₂, hnew⟩ : ∃ rs₂ s₂, E.put s₁ (randInum true rand) [] = (rs₂, s₂) := ⟨_, _, rfl⟩
  obtain ⟨rs₃, s₃, hput⟩ : ∃ rs₃ s₃, E.put s₂ parent
    (b ++ (filename (randInum true rand) ++ pattern name)) = (rs₃, s₃) := ⟨_, _, rfl⟩
  by_cases hrs : rs = .ok
  · by_cases hfind : (find (pattern name) b).isSome = true
    · refine ⟨2, s₁, .exist, none, ?_, ?_⟩
      · simp [create, hdir, hget, hrs, hfind]
      · simp [alone, CallPc.request, CallPc.resume, exec, hget, hrs, hfind]
    · by_cases hrs₂ : rs₂ = .ok
      · refine ⟨6, s₃, .ofExtent rs₃, some (randInum true rand &&& 0xffffffff), ?_, ?_⟩
        · cases rs₃ <;> simp [create, hdir, hget, hrs, hfind, hnum, hnew, hrs₂, hput, Status.ofExtent]
        · cases rs₃ <;> simp [alone, CallPc.request, CallPc.resume, exec, hget, hrs, hfind, hnew,
            hrs₂, hput, Status.ofExtent]
      · refine ⟨5, s₂, .ofExtent rs₂, some (randInum true rand &&& 0xffffffff), ?_, ?_⟩
        · simp [create, hdir, hget, hrs, hfind, hnum, hnew, hrs₂]
        · simp [alone, CallPc.request, CallPc.resume, exec, hget, hrs, hfind, hnew, hrs₂]
  · refine ⟨2, s₁, .ofExtent rs, none, ?_, ?_⟩
    · simp [create, hdir, hget, hrs]
    · simp [alone, CallPc.request, CallPc.resume, exec, hget, hrs]

end

end Yfs.Fs
