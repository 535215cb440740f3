import Yfs.Fs.File
import Yfs.Fs.Readdir
import Yfs.Lib.Emit

/-!
# The requests of the kernel

`fuse.cc` answers each request of the kernel by calls on a `yfs_client`, and then by one of the
functions `fuse_reply_*`. Libfuse frees a request when it is replied to, so a second reply must not
be made. The handlers are written over any implementation of the calls (`YfsOps`), with whatever
they may return. What a handler emits is what it replies.

All handlers reply once, except one: after `fuseserver_readdir` has replied that a directory cannot be
read, it goes on and replies with an empty buffer (`replies_once_iff`).
-/

namespace Yfs.Fs.Fuse

open Yfs.Lib Yfs.Lib.Emit
open Yfs.Rpc (Bytes)

/-! ## The client -/

/-- `yfs_client::fileinfo`. -/
structure FileInfo where
  size : UInt64 := 0
  atime : UInt64 := 0
  mtime : UInt64 := 0
  ctime : UInt64 := 0
  deriving DecidableEq, Repr

/-- `yfs_client::dirinfo`. -/
structure DirInfo where
  atime : UInt64 := 0
  mtime : UInt64 := 0
  ctime : UInt64 := 0
  deriving DecidableEq, Repr

/-- The calls on `yfs_client`, with what they leave in their reference parameters. `none` says that the
call does not return. -/
structure YfsOps (σ : Type) where
  getfile : Inum → σ → Option (σ × Status × FileInfo)
  getdir : Inum → σ → Option (σ × Status × DirInfo)
  setattr : Inum → Int64 → σ → Option (σ × Status)
  read : Inum → UInt64 → Int64 → σ → Option (σ × Status × Bytes)
  write : Inum → Bytes → Int64 → σ → Option (σ × Status)
  create : Inum → Bytes → Bool → σ → Option (σ × Status × Option Inum)
  lookup : Inum → Bytes → σ → Option (σ × Bool × Option Inum)
  unlink : Inum → Bytes → σ → Option (σ × Status)
  getdata : Inum → σ → Option (σ × Extents.Status × Bytes)

/-! ## Replies -/

inductive Errno where
  | success
  | enoent
  | enosys
  | eexist
  | enotdir
  deriving DecidableEq, Repr

/-- What is filled in of a `struct stat`. -/
structure Stat where
  ino : Inum
  mode : UInt32 := 0
  nlink : UInt64 := 0
  atime : UInt64 := 0
  mtime : UInt64 := 0
  ctime : UInt64 := 0
  size : UInt64 := 0
  deriving DecidableEq, Repr

/-- `struct fuse_entry_param`, with the two timeouts in seconds. -/
structure EntryParam where
  ino : Inum
  generation : UInt64 := 0
  attr : Stat
  attrTimeout : Nat := 0
  entryTimeout : Nat := 0
  deriving DecidableEq, Repr

/-- What is filled in of a `struct statvfs`. -/
structure Statvfs where
  namemax : UInt64
  bsize : UInt64
  deriving DecidableEq, Repr

/-- A call of one of the functions `fuse_reply_*`. -/
inductive FuseReply where
  | err (e : Errno)
  | attr (st : Stat)
  | buf (b : Bytes)
  | write (size : UInt64)
  | create (e : EntryParam)
  | entry (e : EntryParam)
  /-- `fuse_reply_open`. -/
  | opened
  | statfs (buf : Statvfs)
  deriving DecidableEq, Repr

/-! ## The handlers -/

/-- `S_IFREG | 0666`. -/
def fileMode : UInt32 := 0x81b6

/-- `S_IFDIR | 0777`. -/
def dirMode : UInt32 := 0x41ff

/-- `FUSE_SET_ATTR_SIZE`. -/
def setAttrSize : UInt32 := 8

section
variable {σ : Type} (Y : YfsOps σ)

/-- `getattr`. -/
def getattr (inum : Inum) : Emit σ FuseReply (Status × Stat) :=
  let st : Stat := { ino := inum }
  if isfile inum then do
    let (ret, info) ← call (Y.getfile inum)
    if ret ≠ .ok then pure (ret, st)
    else pure (.ok, { st with
      mode := fileMode, nlink := 1, atime := info.atime, mtime := info.mtime, ctime := info.ctime,
      size := info.size })
  else do
    let (ret, info) ← call (Y.getdir inum)
    if ret ≠ .ok then pure (ret, st)
    else pure (.ok, { st with
      mode := dirMode, nlink := 2, atime := info.atime, mtime := info.mtime, ctime := info.ctime })

def fuseserverGetattr (ino : Inum) : Emit σ FuseReply Unit := do
  let (ret, st) ← getattr Y ino
  if ret ≠ .ok then emit (.err .enoent) else emit (.attr st)

/-- `fuseserver_setattr`, which uses only the size in `attr`. -/
def fuseserverSetattr (ino : Inum) (stSize : Int64) (toSet : UInt32) : Emit σ FuseReply Unit :=
  if setAttrSize &&& toSet ≠ 0 then do
    let rs ← call (Y.setattr ino stSize)
    let (_, st) ← getattr Y ino
    if rs = .ok then emit (.attr st) else emit (.err .enosys)
  else emit (.err .enosys)

def fuseserverRead (ino : Inum) (size : UInt64) (off : Int64) : Emit σ FuseReply Unit := do
  let (rs, buf) ← call (Y.read ino size off)
  if rs = .ok then emit (.buf buf) else emit (.err .enosys)

/-- `fuseserver_write`; `size` is the length of the buffer. -/
def fuseserverWrite (ino : Inum) (buf : Bytes) (off : Int64) : Emit σ FuseReply Unit := do
  let rs ← call (Y.write ino buf off)
  if rs = .ok then emit (.write (ssize buf)) else emit (.err .enosys)

/-- `fuseserver_createhelper`: the entry if the status is `OK`, or else the status. In this and the
other functions with a `fuse_entry_param`, `junk` is what its `ino` contains before it is set. -/
def fuseserverCreatehelper (junk parent : Inum) (name : Bytes) :
    Emit σ FuseReply (Except Status EntryParam) := do
  let (rs, ino) ← call (Y.create parent name true)
  if rs ≠ .ok then pure (.error rs)
  else do
    let ino := ino.getD junk
    let (rs, attr) ← getattr Y ino
    if rs = .ok then pure (.ok { ino, attr }) else pure (.error rs)

/-- What `fuseserver_create` and `fuseserver_mknod` do: they differ in the function that replies. -/
def fuseserverMake (reply : EntryParam → FuseReply) (junk parent : Inum) (name : Bytes) :
    Emit σ FuseReply Unit := do
  let ret ← fuseserverCreatehelper Y junk parent name
  match ret with
  | .ok e => emit (reply e)
  | .error ret => if ret = .exist then emit (.err .eexist) else emit (.err .enoent)

def fuseserverCreate (junk parent : Inum) (name : Bytes) : Emit σ FuseReply Unit :=
  fuseserverMake Y .create junk parent name

def fuseserverMknod (junk parent : Inum) (name : Bytes) : Emit σ FuseReply Unit :=
  fuseserverMake Y .entry junk parent name

/-- `fuseserver_lookup`, in which the status of `getattr` is not looked at. -/
def fuseserverLookup (junk parent : Inum) (name : Bytes) : Emit σ FuseReply Unit := do
  let (found, ino) ← call (Y.lookup parent name)
  if found then do
    let ino := ino.getD junk
    let (_, attr) ← getattr Y ino
    emit (.entry { ino, attr })
  else emit (.err .enoent)

/-- How `fuseserver_readdir` fills the buffer. If the directory cannot be read it replies, and
leaves the buffer empty. -/
def fillDirbuf (L : Libfuse) (junk : Nat → Inum) (ret : Extents.Status) (buf : Bytes) :
    Emit σ FuseReply Bytes :=
  if ret ≠ .ok then do
    emit (.err .enotdir)
    pure []
  else do
    let es ← call fun s => (scan junk buf (buf.length + 1) 0).map (s, ·)
    pure (dirbuf L es)

def fuseserverReaddir (L : Libfuse) (junk : Nat → Inum) (inum : Inum) (size : UInt64) (off : Int64) :
    Emit σ FuseReply Unit :=
  if !isdir inum then emit (.err .enotdir)
  else do
    let (ret, buf) ← call (Y.getdata inum)
    let b ← fillDirbuf L junk ret buf
    emit (.buf (replyBufLimited b off.toUInt64.toNat size.toNat))

def fuseserverOpen : Emit σ FuseReply Unit := emit .opened

/-- `fuseserver_mkdir`, in which the status of `getattr` is not looked at. -/
def fuseserverMkdir (junk parent : Inum) (name : Bytes) : Emit σ FuseReply Unit := do
  let (rs, ino) ← call (Y.create parent name false)
  if rs = .ok then do
    let ino := ino.getD junk
    let (_, attr) ← getattr Y ino
    emit (.entry { ino, attr })
  else emit (.err .enosys)

def fuseserverUnlink (parent : Inum) (name : Bytes) : Emit σ FuseReply Unit := do
  let rs ← call (Y.unlink parent name)
  if rs = .ok then emit (.err .success) else emit (.err .enosys)

def fuseserverStatfs : Emit σ FuseReply Unit := emit (.statfs { namemax := 255, bsize := 512 })

end

/-- A request, with the arguments that its handler uses. -/
inductive FuseRequest where
  | getattr (ino : Inum)
  | statfs
  | readdir (ino : Inum) (size : UInt64) (off : Int64)
  | lookup (parent : Inum) (name : Bytes)
  | create (parent : Inum) (name : Bytes)
  | mknod (parent : Inum) (name : Bytes)
  /-- `open`. -/
  | opened (ino : Inum)
  | read (ino : Inum) (size : UInt64) (off : Int64)
  | write (ino : Inum) (buf : Bytes) (off : Int64)
  | setattr (ino : Inum) (stSize : Int64) (toSet : UInt32)
  | unlink (parent : Inum) (name : Bytes)
  | mkdir (parent : Inum) (name : Bytes)
  deriving DecidableEq, Repr

/-- The table `fuseserver_oper`, where `junk` is what a handler finds in variables that it has not
set. -/
def fuseserverOper {σ : Type} (L : Libfuse) (Y : YfsOps σ) (junk : Nat → Inum) :
    FuseRequest → Emit σ FuseReply Unit
  | .getattr ino => fuseserverGetattr Y ino
  | .statfs => fuseserverStatfs
  | .readdir ino size off => fuseserverReaddir Y L junk ino size off
  | .lookup parent name => fuseserverLookup Y (junk 0) parent name
  | .create parent name => fuseserverCreate Y (junk 0) parent name
  | .mknod parent name => fuseserverMknod Y (junk 0) parent name
  | .opened _ => fuseserverOpen
  | .read ino size off => fuseserverRead Y ino size off
  | .write ino buf off => fuseserverWrite Y ino buf off
  | .setattr ino stSize toSet => fuseserverSetattr Y ino stSize toSet
  | .unlink parent name => fuseserverUnlink Y parent name
  | .mkdir parent name => fuseserverMkdir Y (junk 0) parent name

/-! ## One reply -/

section
variable {σ : Type} {Y : YfsOps σ} {L : Libfuse} {s s' : σ} {junk parent ino : Inum} {name : Bytes}
  {size : UInt64} {off : Int64} {rs : List FuseReply}

theorem emits_getattr (inum : Inum) : Emits 0 (getattr Y inum) := by
  apply Emits.ite
  · refine (emits_call _).after fun _ => ?_
    exact (emits_pure _).ite (emits_pure _)
  · refine (emits_call _).after fun _ => ?_
    exact (emits_pure _).ite (emits_pure _)

theorem emits_createhelper : Emits 0 (fuseserverCreatehelper Y junk parent name) := by
  refine (emits_call _).after fun _ => ?_
  apply (emits_pure _).ite
  refine (emits_getattr _).after fun _ => ?_
  exact (emits_pure _).ite (emits_pure _)

theorem emits_make {reply : EntryParam → FuseReply} :
    Emits 1 (fuseserverMake Y reply junk parent name) := by
  refine emits_createhelper.after fun ret => ?_
  cases ret with
  | ok e => exact emits_emit _
  | error ret => exact (emits_emit _).ite (emits_emit _)

/-- A call, and a reply that depends on what it returns. -/
theorem emits_reply {α : Type} (f : σ → Option (σ × α)) (p : α → Prop) [DecidablePred p]
    (r r' : α → FuseReply) : Emits 1 (call f >>= fun a => if p a then emit (r a) else emit (r' a)) :=
  (emits_call f).after fun _ => (emits_emit _).ite (emits_emit _)

/-- All handlers but one reply once, whatever happens. -/
theorem emits_oper {junk : Nat → Inum} {r : FuseRequest}
    (hr : ∀ ino size off, r ≠ .readdir ino size off) :
    Emits 1 (fuseserverOper L Y junk r) := by
  cases r with
  | getattr ino =>
      refine (emits_getattr ino).after fun p => ?_
      exact (emits_emit _).ite (emits_emit _)
  | statfs => exact emits_emit _
  | opened => exact emits_emit _
  | readdir ino size off => exact absurd rfl (hr ino size off)
  | lookup parent name =>
      refine (emits_call _).after fun p => ?_
      refine Emits.ite ?_ (emits_emit _)
      exact (emits_getattr _).after fun _ => emits_emit _
  | create parent name => exact emits_make
  | mknod parent name => exact emits_make
  | read ino size off => exact emits_reply _ _ _ _
  | write ino buf off => exact emits_reply _ _ _ _
  | setattr ino stSize toSet =>
      apply Emits.ite
      · refine (emits_call _).after fun rs => ?_
        refine (emits_getattr ino).after fun p => ?_
        exact (emits_emit _).ite (emits_emit _)
      · exact emits_emit _
  | unlink parent name => exact emits_reply _ _ _ _
  | mkdir parent name =>
      refine (emits_call _).after fun p => ?_
      refine Emits.ite ?_ (emits_emit _)
      exact (emits_getattr _).after fun _ => emits_emit _

/-- The directory that is asked for cannot be read. -/
def FuseRequest.Unreadable (Y : YfsOps σ) (s : σ) : FuseRequest → Prop
  | .readdir ino _ _ =>
      isdir ino = true ∧ ∃ s' ret buf, Y.getdata ino s = some (s', ret, buf) ∧ ret ≠ .ok
  | _ => False

/-- The scan comes to an end on any text. -/
theorem scan_whole (junk : Nat → Inum) (buf : Bytes) :
    ∃ es, scan junk buf (buf.length + 1) 0 = some es :=
  scan_total (Nat.zero_le _) (Nat.lt_succ_self _)

theorem fillDirbuf_of_ok {junk : Nat → Inum} {ret : Extents.Status} {buf : Bytes} {es : List Entry}
    (hret : ret = .ok) (hes : scan junk buf (buf.length + 1) 0 = some es) :
    fillDirbuf L junk ret buf s = some (dirbuf L es, s, []) := by
  have hscan : call (ε := FuseReply) (fun s : σ => (scan junk buf (buf.length + 1) 0).map (s, ·)) s =
      some (es, s, []) := by
    simp [call, hes]
  rw [fillDirbuf, if_neg (not_not.mpr hret)]
  exact bind_of_eq hscan

theorem emits_fillDirbuf {junk : Nat → Inum} {ret : Extents.Status} {buf : Bytes} :
    Emits (if ret = .ok then 0 else 1) (fillDirbuf (σ := σ) L junk ret buf) := by
  unfold fillDirbuf
  by_cases hret : ret = .ok
  · rw [if_pos hret, if_neg (not_not.mpr hret)]
    exact (emits_call _).after fun _ => emits_pure _
  · rw [if_neg hret, if_pos hret]
    exact (emits_emit _).bind fun _ => emits_pure _

theorem readdir_length {junk : Nat → Inum}
    (h : fuseserverReaddir Y L junk ino size off s = some ((), s', rs)) :
    rs.length = 1 ↔ ¬(FuseRequest.readdir ino size off).Unreadable Y s := by
  cases hdir : isdir ino with
  | false =>
      simp only [fuseserverReaddir, hdir, Bool.not_false, if_true] at h
      cases h
      simp [FuseRequest.Unreadable, hdir]
  | true =>
      simp only [fuseserverReaddir, hdir, Bool.not_true, Bool.false_eq_true, if_false] at h
      obtain ⟨⟨ret, buf⟩, s₁, es₁, es₂, hdata, hrest, rfl⟩ := bind_eq_some.mp h
      obtain ⟨⟨s₂, ret', buf'⟩, hget, heq⟩ := Option.map_eq_some_iff.mp hdata
      cases heq
      have hunreadable : (FuseRequest.readdir ino size off).Unreadable Y s ↔ ret ≠ .ok := by
        simp [FuseRequest.Unreadable, hdir, hget]
      have hlen : es₂.length = (if ret = .ok then 0 else 1) + 1 :=
        (emits_fillDirbuf.bind fun _ => emits_emit _) _ _ _ _ hrest
      rw [hunreadable, not_not, List.nil_append, hlen]
      split <;> simp [*]

/-! ## Every request returns -/

/-- All calls on the client return. -/
structure YfsOps.Returns (Y : YfsOps σ) : Prop where
  getfile : ∀ i s, ∃ r, Y.getfile i s = some r
  getdir : ∀ i s, ∃ r, Y.getdir i s = some r
  setattr : ∀ i n s, ∃ r, Y.setattr i n s = some r
  read : ∀ i size off s, ∃ r, Y.read i size off s = some r
  write : ∀ i buf off s, ∃ r, Y.write i buf off s = some r
  create : ∀ i name isfile s, ∃ r, Y.create i name isfile s = some r
  lookup : ∀ i name s, ∃ r, Y.lookup i name s = some r
  unlink : ∀ i name s, ∃ r, Y.unlink i name s = some r
  getdata : ∀ i s, ∃ r, Y.getdata i s = some r

theorem returns_getattr (hY : Y.Returns) (inum : Inum) : Emit.Returns (getattr Y inum) := by
  apply Returns.ite
  · refine (returns_call (hY.getfile inum)).bind fun _ => ?_
    exact (returns_pure _).ite (returns_pure _)
  · refine (returns_call (hY.getdir inum)).bind fun _ => ?_
    exact (returns_pure _).ite (returns_pure _)

theorem returns_make (hY : Y.Returns) {reply : EntryParam → FuseReply} :
    Emit.Returns (fuseserverMake Y reply junk parent name) := by
  have hhelper : Emit.Returns (fuseserverCreatehelper Y junk parent name) := by
    refine (returns_call (hY.create _ _ _)).bind fun _ => ?_
    apply (returns_pure _).ite
    refine (returns_getattr hY _).bind fun _ => ?_
    exact (returns_pure _).ite (returns_pure _)
  refine hhelper.bind fun ret => ?_
  cases ret with
  | ok e => exact returns_emit _
  | error ret => exact (returns_emit _).ite (returns_emit _)

theorem returns_readdir (hY : Y.Returns) {junk : Nat → Inum} :
    Emit.Returns (fuseserverReaddir Y L junk ino size off) := by
  apply (returns_emit _).ite
  refine (returns_call (hY.getdata ino)).bind fun p => ?_
  refine Returns.bind ?_ fun _ => returns_emit _
  apply Returns.ite
  · exact (returns_emit _).bind fun _ => returns_pure _
  · obtain ⟨es, hes⟩ := scan_whole junk p.2
    refine (returns_call fun s => ⟨(s, es), ?_⟩).bind fun _ => returns_pure _
    rw [hes]
    rfl

theorem returns_reply {α : Type} {f : σ → Option (σ × α)} (hf : ∀ s, ∃ r, f s = some r) (p : α → Prop)
    [DecidablePred p] (r r' : α → FuseReply) :
    Emit.Returns (call f >>= fun a => if p a then emit (r a) else emit (r' a)) :=
  (returns_call hf).bind fun _ => (returns_emit _).ite (returns_emit _)

theorem returns_oper (hY : Y.Returns) {junk : Nat → Inum} (r : FuseRequest) :
    Emit.Returns (fuseserverOper L Y junk r) := by
  cases r with
  | getattr ino =>
      refine (returns_getattr hY ino).bind fun p => ?_
      exact (returns_emit _).ite (returns_emit _)
  | statfs => exact returns_emit _
  | opened => exact returns_emit _
  | readdir ino size off => exact returns_readdir hY
  | lookup parent name =>
      refine (returns_call (hY.lookup _ _)).bind fun p => ?_
      refine Returns.ite ?_ (returns_emit _)
      exact (returns_getattr hY _).bind fun _ => returns_emit _
  | create parent name => exact returns_make hY
  | mknod parent name => exact returns_make hY
  | read ino size off => exact returns_reply (hY.read _ _ _) _ _ _
  | write ino buf off => exact returns_reply (hY.write _ _ _) _ _ _
  | setattr ino stSize toSet =>
      apply Returns.ite
      · refine (returns_call (hY.setattr _ _)).bind fun rs => ?_
        refine (returns_getattr hY ino).bind fun p => ?_
        exact (returns_emit _).ite (returns_emit _)
      · exact returns_emit _
  | unlink parent name => exact returns_reply (hY.unlink _ _) _ _ _
  | mkdir parent name =>
      refine (returns_call (hY.create _ _ _)).bind fun p => ?_
      refine Returns.ite ?_ (returns_emit _)
      exact (returns_getattr hY _).bind fun _ => returns_emit _

end

/-- If the calls on the client return, so does every handler; and a handler that returns has replied
once, unless the directory that it was to read cannot be read. -/
theorem replies_once_iff {σ : Type} (L : Libfuse) (Y : YfsOps σ) (junk : Nat → Inum) (r : FuseRequest)
    (s : σ) :
    (Y.Returns → ∃ s' rs, fuseserverOper L Y junk r s = some ((), s', rs)) ∧
    ∀ s' rs, fuseserverOper L Y junk r s = some ((), s', rs) → (rs.length = 1 ↔ ¬r.Unreadable Y s) := by
  constructor
  · intro hY
    obtain ⟨⟨⟨⟩, s', rs⟩, h⟩ := returns_oper hY r s
    exact ⟨s', rs, h⟩
  · intro s' rs h
    cases r with
    | readdir ino size off => exact readdir_length h
    | _ => exact iff_of_true (emits_oper (by simp) _ _ _ _ h) id

/-! ## The client of this repository -/

/-- An extent store with `getattr`. -/
structure AttrOps (σ : Type) extends ExtentOps σ where
  getattr : σ → Inum → Extents.Status × Extents.Attr × σ

section
variable {σ : Type} (E : AttrOps σ)

/-- `yfs_client::getfile`. -/
def getfile (inum : Inum) (s : σ) : σ × Status × FileInfo :=
  let (ret, a, s) := E.getattr s inum
  if ret ≠ .ok then (s, .ioerr, {})
  else (s, .ok, { atime := a.atime.toUInt64, mtime := a.mtime.toUInt64, ctime := a.ctime.toUInt64,
                  size := a.size.toUInt64 })

/-- `yfs_client::getdir`. -/
def getdir (inum : Inum) (s : σ) : σ × Status × DirInfo :=
  let (ret, a, s) := E.getattr s inum
  if ret ≠ .ok then (s, .ioerr, {})
  else (s, .ok, { atime := a.atime.toUInt64, mtime := a.mtime.toUInt64, ctime := a.ctime.toUInt64 })

/-- `yfs_client::getdata`. -/
def getdata (ino : Inum) (s : σ) : σ × Extents.Status × Bytes :=
  let (ret, buf, s) := E.get s ino
  (s, ret, buf)

/-- `yfs_client`, over an extent store and what `rand()` is going to return, where `n2i` leaves
`junk` in a number that it does not set. -/
def yfsClient (junk : Inum) : YfsOps (σ × (Nat → UInt32)) where
  getfile i s := let (t, r) := getfile E i s.1; some ((t, s.2), r)
  getdir i s := let (t, r) := getdir E i s.1; some ((t, s.2), r)
  setattr i n s := (setattr E.toExtentOps i n s.1).toOption.map fun r => ((r.1, s.2), r.2)
  read i size off s :=
    (read E.toExtentOps i size off s.1).toOption.map fun r => ((r.1, s.2), r.2.1, r.2.2.getD [])
  write i buf off s := (write E.toExtentOps i buf off s.1).toOption.map fun r => ((r.1, s.2), r.2)
  create i name isfile s :=
    (create E.toExtentOps i name isfile (s.2 0) s.1).map fun r =>
      -- the number was asked for if an inode number was chosen
      ((r.1, if r.2.2.isSome then fun k => s.2 (k + 1) else s.2), r.2)
  lookup i name s := (lookup E.toExtentOps i name junk s.1).map fun r => ((r.1, s.2), r.2)
  unlink i name s := (unlink E.toExtentOps i name junk s.1).map fun r => ((r.1, s.2), r.2)
  getdata i s := let (t, r) := getdata E i s.1; some ((t, s.2), r)

end

/-- The replies to a `readdir` among all replies. -/
def ofReply : Reply → FuseReply
  | .err => .err .enotdir
  | .buf b => .buf b

/-- With the client of this repository, the handler is the `readdir` of which the listings are made. -/
theorem fuseserverReaddir_eq {σ : Type} (L : Libfuse) (E : AttrOps σ) (k : Inum) (junk : Nat → Inum)
    (ino : Inum) (size : UInt64) (off : Int64) (s : σ) (rand : Nat → UInt32) :
    fuseserverReaddir (yfsClient E k) L junk ino size off (s, rand) =
      (readdir L E.toExtentOps junk ino size.toNat off.toUInt64.toNat s).map fun r =>
        ((), (r.1, rand), r.2.map ofReply) := by
  cases hdir : isdir ino with
  | false => simp [fuseserverReaddir, readdir, hdir, emit, ofReply]
  | true =>
      obtain ⟨ret, buf, s', hget⟩ : ∃ ret buf s', E.get s ino = (ret, buf, s') := ⟨_, _, _, rfl⟩
      have hdata : call (ε := FuseReply) ((yfsClient E k).getdata ino) (s, rand) =
          some ((ret, buf), (s', rand), []) := by
        simp [call, yfsClient, getdata, hget]
      simp only [fuseserverReaddir, readdir, hdir, hget, Bool.not_true, Bool.false_eq_true,
        if_false, if_true]
      rw [bind_of_eq hdata]
      by_cases hret : ret = .ok
      · obtain ⟨es, hes⟩ := scan_whole junk buf
        rw [bind_of_eq (fillDirbuf_of_ok hret hes), if_neg (not_not.mpr hret), hes]
        rfl
      · have hfill : fillDirbuf L junk ret buf (s', rand) = some ([], (s', rand), [.err .enotdir]) := by
          rw [fillDirbuf, if_pos hret]
          rfl
        rw [bind_of_eq hfill, if_pos hret]
        rfl

/-- A map of extents, with no times. -/
def mapAttrOps : AttrOps (Inum → Option Bytes) where
  toExtentOps := mapOps
  getattr s i :=
    match s i with
    | some buf => (.ok, { size := Extents.size buf }, s)
    | none => (.noent, {}, s)

/-- A directory that is not there: the request is replied to twice. -/
theorem readdir_replies_twice :
    (fuseserverOper kernelDirents (yfsClient mapAttrOps 0) (fun _ => 0) (.readdir 5 4096 0)
      (fun _ => none, fun _ => 0)).map (fun r => r.2.2) = some [.err .enotdir, .buf []] := by
  decide

end Yfs.Fs.Fuse
