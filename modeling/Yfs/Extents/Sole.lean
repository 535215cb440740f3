import Yfs.Extents.Client
import Yfs.Lib.System

/-!
# An extent client that nobody disturbs

While one client alone uses an extent, its calls come one after the other, and the RPC of a call is
executed before the call goes on: `Op.call` is a whole call. The size in a cache entry is kept apart
from the data, and filled in by three different operations. It is nevertheless the size of the data
whenever `getattr` trusts it (`reported_size_agrees`).
-/

namespace Yfs.Extents

open Yfs.Lib
open Yfs.Rpc (Bytes)

/-- What `time(NULL)` returns at the client before the RPC, at the server, and at the client after
it. -/
structure Times where
  before : UInt32
  server : UInt32
  after : UInt32
  deriving DecidableEq, Repr

/-- A whole call of an operation. -/
def Op.call (n : Copies) (t : Times) (op : Op) : Answer × Copies :=
  match op.start n.cache t.before with
  | .done e r => (r, { n with cache := e })
  | .call e p =>
      let (r, x) := p.serve n.server t.server
      let (e, r) := p.finish e r t.after
      (r, { cache := e, server := x })

/-- The calls of the client. -/
inductive SoleOp where
  | get
  | getattr
  | put (buf : Bytes) (short : buf.length < 2 ^ 32)
  | flush
  deriving DecidableEq

def SoleOp.op : SoleOp → Op
  | .get => .get
  | .getattr => .getattr
  | .put buf _ => .put buf
  | .flush => .flush

/-- The server has written down the right size. -/
def Extent.Sized (x : Extent) : Prop := x.name.length < 2 ^ 32 ∧ x.attr.size = size x.name

/-- Nothing of the extent is in the cache. -/
def Copies.Unused (n : Copies) : Prop := n.cache = none ∨ ∃ c : ExtentCache, n.cache = some c.clear

/-- One extent, used by one client. -/
def soleSystem : System Copies (SoleOp × Times) Answer where
  init n := n.Unused ∧ ∀ x, n.server = some x → x.Sized
  next n a := some ((a.1.op.call n a.2).2, [(a.1.op.call n a.2).1])

/-- All extents, used by one client. -/
def soleWorld : System (ExtentId → Copies) (ExtentId × SoleOp × Times) (ExtentId × Answer) :=
  .pi fun _ => soleSystem

/-! ## The server -/

section
variable {x : Extent} {buf : Bytes}

theorem toNat_size (h : buf.length < 2 ^ 32) : (size buf).toNat = buf.length := by
  unfold size
  rw [UInt32.toNat_ofNat']
  exact Nat.mod_eq_of_lt h

theorem Extent.Sized.toNat (h : x.Sized) : x.attr.size.toNat = x.name.length := by
  rw [h.2, toNat_size h.1]

theorem sized_serverPut (e : Option Extent) (now : UInt32) (hbuf : buf.length < 2 ^ 32) :
    ∃ x, (serverPut e buf now).2 = some x ∧ x.Sized := by
  cases e with
  | none => exact ⟨_, rfl, hbuf, rfl⟩
  | some x => exact ⟨_, rfl, hbuf, rfl⟩

end

/-! ## The invariant -/

/-- What a cache entry knows about its size: a dirty one has the size of its data; another one has the
size of the server's data, unless `ctime` says that it does not know. -/
structure EntrySized (c : ExtentCache) (server : Option Extent) : Prop where
  dirty : c.dirty = true → c.valid = true ∧ c.data.length < 2 ^ 32 ∧ c.a.size = size c.data
  data : c.dirty = false → c.valid = true → ∃ x, server = some x ∧ x.name = c.data
  known : c.dirty = false → c.a.ctime ≠ 0 → ∃ x, server = some x ∧ x.attr.size = c.a.size

/-- Both copies have the right size. -/
structure Copies.SizesOk (n : Copies) : Prop where
  server : ∀ x, n.server = some x → x.Sized
  entry : ∀ c, n.cache = some c → EntrySized c n.server

theorem entrySized_clear (c : ExtentCache) (e : Option Extent) : EntrySized c.clear e where
  dirty h := by cases h
  data _ h := by cases h
  known _ h := absurd rfl h

theorem entrySized_new (e : Option Extent) : EntrySized .new e where
  dirty h := by cases h
  data _ h := by cases h
  known _ h := absurd rfl h

namespace Copies

variable {n : Copies} {t : Times}

theorem Unused.sizesOk (h : n.Unused) (hserver : ∀ x, n.server = some x → x.Sized) : n.SizesOk where
  server := hserver
  entry c hc := by
    rcases h with hnone | ⟨c', hc'⟩
    · rw [hnone] at hc
      cases hc
    · rw [hc'] at hc
      cases hc
      exact entrySized_clear c' n.server

theorem SizesOk.getD (h : n.SizesOk) : EntrySized (n.cache.getD .new) n.server := by
  cases hc : n.cache with
  | none => exact entrySized_new _
  | some c => exact h.entry c hc

/-! ## One call -/

/-- What `get` does: it returns what is in the cache, or the server's data, which is then in the
cache. -/
theorem get_call (n : Copies) (t : Times) :
    (∃ c, n.cache = some c ∧ (c.valid = true ∨ c.dirty = true) ∧
      Op.get.call n t = ({ ret := .ok, buf := c.data }, n)) ∨
    (∀ c, n.cache = some c → c.valid = false ∧ c.dirty = false) ∧
      ((n.server = none ∧ Op.get.call n t = ({ ret := .noent }, n)) ∨
        ∃ x, n.server = some x ∧
          (Op.get.call n t).1 = { ret := .ok, buf := x.name } ∧
          (Op.get.call n t).2.server = some { x with attr := { x.attr with atime := t.server } } ∧
          ∃ a, (Op.get.call n t).2.cache =
              some { data := x.name, dirty := false, valid := true, a } ∧
            (a.ctime ≠ 0 → ∃ c, n.cache = some c ∧ a.ctime = c.a.ctime ∧ a.size = c.a.size)) := by
  obtain ⟨cache, server⟩ := n
  cases cache with
  | none =>
      refine .inr ⟨by simp, ?_⟩
      cases server with
      | none => exact .inl ⟨rfl, rfl⟩
      | some x => exact .inr ⟨x, rfl, rfl, rfl, _, rfl, fun h => absurd rfl h⟩
  | some c =>
      by_cases hblank : c.valid = false ∧ c.dirty = false
      · refine .inr ⟨by simpa using hblank, ?_⟩
        cases server with
        | none =>
            refine .inl ⟨rfl, ?_⟩
            simp [Op.call, Op.start, get, hblank, Pending.serve, serverGet, Pending.finish, getReply]
        | some x =>
            refine .inr ⟨x, rfl, ?_, ?_, { c.a with atime := t.after }, ?_, fun _ => ⟨c, rfl, rfl, rfl⟩⟩
            all_goals
              simp [Op.call, Op.start, get, hblank, Pending.serve, serverGet, Pending.finish, getReply]
      · refine .inl ⟨c, rfl, by grind, ?_⟩
        have : (!c.valid && !c.dirty) = false := by grind
        simp [Op.call, Op.start, get, this]

/-- What `getattr` does: it trusts the entry if it has all times, and asks the server otherwise. -/
theorem getattr_call (n : Copies) (t : Times) :
    ((n.cache.getD .new).a.ctime ≠ 0 ∧
      Op.getattr.call n t = ({ ret := .ok, attr := (n.cache.getD .new).a },
        { n with cache := some (n.cache.getD .new) })) ∨
    (n.server = none ∧
      Op.getattr.call n t = ({ ret := .noent }, { n with cache := some (n.cache.getD .new) })) ∨
    ∃ x a, n.server = some x ∧
      a.size = (if (n.cache.getD .new).dirty then (n.cache.getD .new).a.size else x.attr.size) ∧
      Op.getattr.call n t = ({ ret := .ok, attr := a },
        { n with cache := some { n.cache.getD .new with a } }) := by
  obtain ⟨cache, server⟩ := n
  simp only
  generalize hc : cache.getD .new = c
  by_cases hzero : c.a.ctime = 0 ∨ c.a.mtime = 0 ∨ c.a.atime = 0
  · right
    cases server with
    | none =>
        refine .inl ⟨rfl, ?_⟩
        simp [Op.call, Op.start, getattr, hc, hzero, Pending.serve, serverGetattr, Pending.finish,
          getattrReply]
    | some x =>
        refine .inr ⟨x, (getattrReply (some c) { ret := .ok, attr := x.attr }).2.attr, rfl, ?_, ?_⟩
        · simp [getattrReply]
        · simp [Op.call, Op.start, getattr, hc, hzero, Pending.serve, serverGetattr, Pending.finish,
            getattrReply]
  · refine .inl ⟨fun h => hzero (.inl h), ?_⟩
    simp [Op.call, Op.start, getattr, hc, hzero]

theorem SizesOk.get (h : n.SizesOk) : (Op.get.call n t).2.SizesOk := by
  rcases get_call n t with ⟨c, -, -, hcall⟩ | ⟨hblank, ⟨-, hcall⟩ | hfetch⟩
  · rw [hcall]
    exact h
  · rw [hcall]
    exact h
  · obtain ⟨x, hx, -, hserver, a, hcache, ha⟩ := hfetch
    constructor
    case server =>
      intro y hy
      rw [hserver] at hy
      cases hy
      exact h.server x hx
    case entry =>
      intro c hc
      rw [hcache] at hc
      cases hc
      rw [hserver]
      refine ⟨by simp, fun _ _ => ⟨_, rfl, rfl⟩, fun _ hctime => ?_⟩
      -- the size was known before, and is kept
      obtain ⟨c₀, hc₀, hctime₀, hsize⟩ := ha hctime
      have hknown := (h.entry c₀ hc₀).known (hblank c₀ hc₀).2 (hctime₀ ▸ hctime)
      obtain ⟨y, hy, hysize⟩ := hknown
      rw [hx] at hy
      cases hy
      exact ⟨_, rfl, hysize.trans hsize.symm⟩

theorem SizesOk.getattr (h : n.SizesOk) : (Op.getattr.call n t).2.SizesOk := by
  have hentry := h.getD
  rcases getattr_call n t with ⟨-, hcall⟩ | ⟨-, hcall⟩ | ⟨x, a, hx, hsize, hcall⟩
  · rw [hcall]
    exact ⟨h.server, fun c hc => by cases hc; exact hentry⟩
  · rw [hcall]
    exact ⟨h.server, fun c hc => by cases hc; exact hentry⟩
  · rw [hcall]
    refine ⟨h.server, fun c hc => ?_⟩
    cases hc
    constructor
    case dirty =>
      intro hd
      obtain ⟨hvalid, hlen, hold⟩ := hentry.dirty hd
      refine ⟨hvalid, hlen, ?_⟩
      show a.size = _
      rw [hsize, if_pos hd, hold]
    case data => exact hentry.data
    case known =>
      intro hd _
      refine ⟨x, hx, ?_⟩
      show x.attr.size = a.size
      rw [hsize, if_neg (by rw [hd]; exact Bool.false_ne_true)]

theorem SizesOk.put (h : n.SizesOk) {buf : Bytes} (hbuf : buf.length < 2 ^ 32) :
    ((Op.put buf).call n t).2.SizesOk := by
  refine ⟨h.server, fun c hc => ?_⟩
  have hdirty : c.dirty = true ∧ c.valid = true ∧ c.data = buf ∧ c.a.size = size buf := by
    cases hn : n.cache <;> simp only [Op.call, Op.start, Extents.put, hn, Option.some.injEq] at hc <;>
      subst hc <;> exact ⟨rfl, rfl, rfl, rfl⟩
  obtain ⟨hd, hv, hdata, hsize⟩ := hdirty
  refine ⟨fun _ => ⟨hv, ?_, ?_⟩, ?_, ?_⟩
  · rw [hdata]
    exact hbuf
  · rw [hsize, hdata]
  · rw [hd]
    intro h
    cases h
  · rw [hd]
    intro h
    cases h

theorem SizesOk.flush (h : n.SizesOk) : (Op.flush.call n t).2.SizesOk := by
  obtain ⟨cache, server⟩ := n
  cases cache with
  | none => exact h
  | some c =>
      by_cases hd : c.dirty = true
      · -- a dirty entry is valid, so it is put
        obtain ⟨hv, hlen, -⟩ := (h.entry c rfl).dirty hd
        obtain ⟨x, hx, hsized⟩ := sized_serverPut server t.server hlen
        have hcall : (Op.flush.call ⟨some c, server⟩ t).2 = ⟨some c.clear, some x⟩ := by
          simp [Op.call, Op.start, Extents.flush, hd, hv, Pending.serve, Pending.finish, flushReply, hx]
        rw [hcall]
        refine ⟨fun y hy => ?_, fun c' hc' => ?_⟩
        · cases hy
          exact hsized
        · cases hc'
          exact entrySized_clear c _
      · have hcall : (Op.flush.call ⟨some c, server⟩ t).2 = ⟨some c.clear, server⟩ := by
          simp [Op.call, Op.start, Extents.flush, hd]
        rw [hcall]
        refine ⟨h.server, fun c' hc' => ?_⟩
        cases hc'
        exact entrySized_clear c _

theorem SizesOk.call (h : n.SizesOk) (op : SoleOp) : (op.op.call n t).2.SizesOk := by
  cases op with
  | get => exact h.get
  | getattr => exact h.getattr
  | put buf short => exact h.put short
  | flush => exact h.flush

/-- What `get` returns has the size of a dirty entry, or else the size of the server's data. -/
theorem SizesOk.get_size (h : n.SizesOk) {sz : UInt32}
    (hdirty : (n.cache.getD .new).dirty = true → sz = (n.cache.getD .new).a.size)
    (hclean : (n.cache.getD .new).dirty = false → ∃ x, n.server = some x ∧ x.attr.size = sz) :
    ∃ buf, (Op.get.call n t).1 = { ret := .ok, buf } ∧ sz.toNat = buf.length := by
  have hentry := h.getD
  rcases get_call n t with ⟨c, hc, hlive, hcall⟩ | ⟨hblank, hrest⟩
  · rw [hcall]
    refine ⟨c.data, rfl, ?_⟩
    rw [hc, Option.getD_some] at hentry hdirty hclean
    cases hd : c.dirty with
    | true =>
        obtain ⟨-, hlen, hsize⟩ := hentry.dirty hd
        rw [hdirty hd, hsize, toNat_size hlen]
    | false =>
        obtain ⟨x, hx, hsz⟩ := hclean hd
        obtain ⟨y, hy, hdata⟩ := hentry.data hd (by simpa [hd] using hlive)
        rw [hx] at hy
        cases hy
        rw [← hsz, (h.server x hx).toNat, hdata]
  · have hd : (n.cache.getD .new).dirty = false := by
      cases hc : n.cache with
      | none => rfl
      | some c => exact (hblank c hc).2
    obtain ⟨x, hx, hsz⟩ := hclean hd
    rcases hrest with ⟨hnone, -⟩ | ⟨y, hy, hcall, -⟩
    · rw [hnone] at hx
      cases hx
    · rw [hx] at hy
      cases hy
      refine ⟨x.name, hcall, ?_⟩
      rw [← hsz, (h.server x hx).toNat]

/-- The size that `getattr` reports is that of what `get` returns. -/
theorem SizesOk.getattr_size (h : n.SizesOk) (t' : Times)
    (hok : (Op.getattr.call n t).1.ret = .ok) :
    ∃ buf, (Op.get.call n t').1 = { ret := .ok, buf } ∧
      (Op.getattr.call n t).1.attr.size.toNat = buf.length := by
  rcases getattr_call n t with ⟨hctime, hcall⟩ | ⟨-, hcall⟩ | ⟨x, a, hx, hsize, hcall⟩
  · rw [hcall]
    exact h.get_size (fun _ => rfl) fun hd => h.getD.known hd hctime
  · rw [hcall] at hok
    cases hok
  · rw [hcall]
    refine h.get_size (fun hd => ?_) fun hd => ⟨x, hx, ?_⟩
    · show a.size = _
      rw [hsize, if_pos hd]
    · show _ = a.size
      rw [hsize, if_neg (by rw [hd]; exact Bool.false_ne_true)]

end Copies

/-! ## Every run -/

theorem sole_sizesOk {n : Copies} (h : soleSystem.Reachable n) : n.SizesOk := by
  apply h.invariant
  · intro n hn
    exact hn.1.sizesOk hn.2
  · intro n a n' es hok hn
    cases hn
    exact hok.call a.1

/-- At every point of every sequence of calls, for every extent: if `getattr` returns OK, then so
does `get`, and the size is the length of the data. -/
theorem reported_size_agrees {w : ExtentId → Copies} (h : soleWorld.Reachable w) (eid : ExtentId)
    (t t' : Times) (hok : (Op.getattr.call (w eid) t).1.ret = .ok) :
    ∃ buf, (Op.get.call (w eid) t').1 = { ret := .ok, buf } ∧
      (Op.getattr.call (w eid) t).1.attr.size.toNat = buf.length :=
  (sole_sizesOk (h.proj eid)).getattr_size t' hok

/-- After a put, a flush and a get, the size comes from the server. -/
theorem reported_size_flushed :
    ∃ w, soleWorld.Reachable w ∧ (Op.getattr.call (w 5) ⟨4, 4, 4⟩).1.attr.size = 3 ∧
      ∃ buf, (Op.get.call (w 5) ⟨5, 5, 5⟩).1 = { ret := .ok, buf } ∧ 3 = buf.length := by
  obtain ⟨w, hw, hok, hsize⟩ := System.exists_reachable (S := soleWorld) (s := fun _ => ⟨none, none⟩)
    (p := fun w => (Op.getattr.call (w 5) ⟨4, 4, 4⟩).1.ret = .ok ∧
      (Op.getattr.call (w 5) ⟨4, 4, 4⟩).1.attr.size = 3)
    [(5, .put [1, 2, 3] (by decide), ⟨1, 1, 1⟩), (5, .flush, ⟨2, 2, 2⟩), (5, .get, ⟨3, 3, 3⟩)]
    (fun _ => ⟨.inl rfl, by simp⟩) (by decide)
  obtain ⟨buf, hbuf, hlen⟩ := reported_size_agrees hw 5 ⟨4, 4, 4⟩ ⟨5, 5, 5⟩ hok
  rw [hsize] at hlen
  exact ⟨w, hw, hsize, buf, hbuf, hlen⟩

end Yfs.Extents
