import Yfs.Extents.Server

/-!
# The extent client and its write-back cache

`extent_client` keeps an `ExtentCache` per extent id. An entry holds the data if `valid`, and has
changes the server does not know of if `dirty`: a dirty entry that is not valid is an extent that
was removed here, and an entry with neither flag is a placeholder.

Each operation makes at most one RPC. It is given in two parts: what it does before the RPC, which
may be all (`Section.done`), and what it does with the reply. Nothing is locked in between, so the
entry may have changed when the reply comes.
-/

namespace Yfs.Extents

open Yfs.Rpc (Bytes)

/-- `extent_client::ExtentCache`. -/
structure ExtentCache where
  data : Bytes
  dirty : Bool
  valid : Bool
  a : Attr
  deriving DecidableEq, Repr

namespace ExtentCache

/-- A default-constructed entry. Its constructor leaves `a` alone; every operation that creates an
entry writes all of `a`. -/
def new : ExtentCache := { data := [], dirty := false, valid := false, a := {} }

end ExtentCache

/-- The RPC an operation waits for. -/
inductive Pending where
  /-- From `get`; `flag` says whether there was an entry. -/
  | get (flag : Bool)
  /-- From `getattr`. -/
  | getattr
  /-- From `flush` of a valid entry. -/
  | put (buf : Bytes)
  /-- From `flush` of a removed entry. -/
  | remove
  deriving DecidableEq, Repr

/-- How the first part of an operation ends, with the entry it leaves. -/
inductive Section where
  | done (e : Option ExtentCache) (r : Answer)
  | call (e : Option ExtentCache) (p : Pending)
  deriving DecidableEq, Repr

/-! ## The operations -/

/-- `extent_client::get` up to the RPC. -/
def get (e : Option ExtentCache) : Section :=
  match e with
  | none => .call none (.get false)
  | some c =>
      if !c.valid && !c.dirty then .call (some c) (.get true)
      else .done (some c) { ret := .ok, buf := c.data }

/-- `extent_client::get` from the reply on. -/
def getReply (flag : Bool) (e : Option ExtentCache) (r : Answer) (now : UInt32) :
    Option ExtentCache × Answer :=
  if r.ret = .ok then
    let a := { (e.getD .new).a with atime := now }
    let a := if flag then a else { a with ctime := 0, mtime := 0, size := size r.buf }
    (some { data := r.buf, dirty := false, valid := true, a }, { ret := .ok, buf := r.buf })
  else (e, { ret := r.ret })

/-- `extent_client::getattr` up to the RPC. -/
def getattr (e : Option ExtentCache) : Section :=
  let c := e.getD .new
  if c.a.ctime = 0 ∨ c.a.mtime = 0 ∨ c.a.atime = 0 then .call (some c) .getattr
  else .done (some c) { ret := .ok, attr := c.a }

/-- `extent_client::getattr` from the reply on. -/
def getattrReply (e : Option ExtentCache) (r : Answer) : Option ExtentCache × Answer :=
  if r.ret = .ok then
    let c := e.getD .new
    let a : Attr :=
      { ctime := if c.a.ctime = 0 then r.attr.ctime else c.a.ctime
        mtime := if c.a.mtime = 0 then r.attr.mtime else c.a.mtime
        atime := if c.a.atime = 0 then r.attr.atime else c.a.atime
        size := if c.dirty then c.a.size else r.attr.size }
    (some { c with a }, { ret := .ok, attr := a })
  else (e, { ret := r.ret })

/-- `extent_client::put`. -/
def put (e : Option ExtentCache) (buf : Bytes) (now : UInt32) : Section :=
  let a : Attr := { mtime := now, ctime := now, atime := now, size := size buf }
  let a := match e with
    | some c => { a with atime := c.a.atime }
    | none => a
  .done (some { data := buf, dirty := true, valid := true, a }) { ret := .ok }

/-- `extent_client::remove`. -/
def remove (e : Option ExtentCache) : Section :=
  match e with
  -- `operator[]` leaves a placeholder behind; the server is not asked
  | none => .done (some .new) { ret := .noent }
  | some c => .done (some { c with valid := false, dirty := true }) { ret := .ok }

/-- The last lines of `flush`: the entry becomes a placeholder. -/
def ExtentCache.clear (c : ExtentCache) : ExtentCache :=
  { c with valid := false, dirty := false, a := {} }

/-- `extent_client::flush` up to the RPC. -/
def flush (e : Option ExtentCache) : Section :=
  match e with
  | none => .done none { ret := .ok }
  | some c =>
      if c.dirty then
        -- dirty but not valid: removed here and not yet at the server
        if !c.valid then .call (some c) .remove else .call (some c) (.put c.data)
      else .done (some c.clear) { ret := .ok }

/-- `extent_client::flush` from the reply on. -/
def flushReply (e : Option ExtentCache) (r : Answer) : Option ExtentCache × Answer :=
  (some (e.getD .new).clear, { ret := r.ret })

/-! ## Dispatch -/

/-- A call of an operation. -/
inductive Op where
  | get
  | getattr
  | put (buf : Bytes)
  | remove
  | flush
  deriving DecidableEq, Repr

/-- The first part of an operation. -/
def Op.start (e : Option ExtentCache) (now : UInt32) : Op → Section
  | .get => Extents.get e
  | .getattr => Extents.getattr e
  | .put buf => Extents.put e buf now
  | .remove => Extents.remove e
  | .flush => Extents.flush e

/-- The server executes an RPC. -/
def Pending.serve (x : Option Extent) (now : UInt32) : Pending → Answer × Option Extent
  | .get _ => serverGet x now
  | .getattr => serverGetattr x
  | .put buf => serverPut x buf now
  | .remove => serverRemove x

/-- The second part of an operation. -/
def Pending.finish (e : Option ExtentCache) (r : Answer) (now : UInt32) :
    Pending → Option ExtentCache × Answer
  | .get flag => getReply flag e r now
  | .getattr => getattrReply e r
  | .put _ | .remove => flushReply e r

/-! ## What the two copies say -/

/-- One extent, in the cache of a client and on the server. -/
structure Copies where
  cache : Option ExtentCache
  server : Option Extent
  deriving DecidableEq, Repr

namespace Copies

/-- The data on the server. -/
def stored (n : Copies) : Option Bytes := n.server.map Extent.name

/-- The contents of the extent, if no other client has a cache. -/
def view (n : Copies) : Option Bytes :=
  match n.cache with
  | none => n.stored
  | some c => if c.valid then some c.data else if c.dirty then none else n.stored

/-- No entry, or a placeholder. -/
def Blank (n : Copies) : Prop := ∀ c, n.cache = some c → c.valid = false ∧ c.dirty = false

/-- The entry says that the extent was removed here. -/
def Removed (n : Copies) : Prop := ∃ c, n.cache = some c ∧ c.valid = false ∧ c.dirty = true

/-- Data that is not dirty is the server's. -/
def Clean (n : Copies) : Prop :=
  ∀ c, n.cache = some c → c.valid = true → c.dirty = false → n.stored = some c.data

variable {n : Copies} {c : ExtentCache} {x : Option Extent}

@[simp] theorem blank_none : Blank ⟨none, x⟩ := by simp [Blank]

@[simp] theorem blank_some : Blank ⟨some c, x⟩ ↔ c.valid = false ∧ c.dirty = false := by
  simp [Blank]

theorem Blank.view (h : n.Blank) : n.view = n.stored := by
  unfold Copies.view
  split
  · rfl
  · rename_i c hc
    simp [h c hc]

theorem Blank.clean (h : n.Blank) : n.Clean := by
  intro c hc hv
  rw [(h c hc).1] at hv
  cases hv

theorem Blank.not_removed (h : n.Blank) : ¬ n.Removed := by
  rintro ⟨c, hc, -, hd⟩
  rw [(h c hc).2] at hd
  cases hd

end Copies

end Yfs.Extents
