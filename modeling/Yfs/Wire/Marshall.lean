import Yfs.Wire.Types

/-!
# Marshalling

`Marshall` is the growing buffer that `<<` writes to. `buf` gives every position of the block a byte,
also those that were never written: what `malloc` and `realloc` leave there is arbitrary. `none` says
that a write falls outside the block or that an `int` overflows. `put` is `<<`, and the headers are
packed at fixed positions, by moving `_ind` there and back.

`writes_put` says that `<<` appends the encoding of the value, as long as the message stays within
2³⁰ bytes.
-/

namespace Yfs.Wire

open Yfs.Lib
open Yfs.Rpc (Bytes intBody ReqHeader ReplyHeader)

/-- `DEFAULT_RPC_SZ`. -/
def defaultRpcSz : Nat := 1024

/-- `RPC_HEADER_SZ`: the larger header and the size of the message. -/
def rpcHeaderSz : Nat := 24

/-- `sizeof(rpc_sz_t)`. -/
def rpcSzSz : Nat := 4

structure Marshall where
  buf : Nat → UInt8
  capa : Nat
  ind : Nat

/-- A header of either kind. -/
inductive Header where
  | req (h : ReqHeader)
  | reply (h : ReplyHeader)
  deriving DecidableEq, Repr

/-- The bytes of a header. -/
def Header.bytes : Header → Bytes
  | req h => intBody h.xid ++ (intBody h.proc ++ (intBody h.cltNonce ++ (intBody h.srvNonce ++
      intBody h.xidRep)))
  | reply h => intBody h.xid ++ intBody h.ret.toUInt32

theorem Header.bytes_length (h : Header) : rpcSzSz + h.bytes.length ≤ rpcHeaderSz := by
  cases h <;> simp [bytes, intBody, rpcSzSz, rpcHeaderSz]

namespace Marshall

/-- A new buffer in a block that contains `junk`. -/
def new (junk : Nat → UInt8) : Marshall :=
  { buf := junk, capa := defaultRpcSz, ind := rpcHeaderSz }

/-- The block grows to `capa` bytes. -/
def realloc (m : Marshall) (capa : Nat) : Option Marshall :=
  -- `_capa` is an `int`
  if capa < 2 ^ 31 then some { m with capa } else none

/-- Copy bytes to the block. -/
def memcpy (m : Marshall) (p : Bytes) : Option Marshall :=
  if m.ind + p.length ≤ m.capa then
    some { m with
      buf := fun k => if m.ind ≤ k then p[k - m.ind]?.getD (m.buf k) else m.buf k
      ind := m.ind + p.length }
  else none

/-- `marshall::rawbyte`. -/
def rawbyte (m : Marshall) (x : UInt8) : Option Marshall := do
  let m ← if m.capa ≤ m.ind then m.realloc (2 * m.capa) else some m
  m.memcpy [x]

/-- `marshall::rawbytes`. -/
def rawbytes (m : Marshall) (p : Bytes) : Option Marshall := do
  let m ←
    -- `_ind+n` is computed in an `int`
    if m.ind + p.length < 2 ^ 31 then
      if m.capa < m.ind + p.length then
        m.realloc (if p.length < m.capa then 2 * m.capa else m.capa + p.length)
      else some m
    else none
  m.memcpy p

/-- `operator<<` for the 32-bit types, and `marshall::pack`. -/
def word (m : Marshall) (x : UInt32) : Option Marshall := do
  let m ← m.rawbyte (byte x 24)
  let m ← m.rawbyte (byte x 16)
  let m ← m.rawbyte (byte x 8)
  m.rawbyte (byte x 0)

/-- `operator<<` for the 16-bit types. -/
def word16 (m : Marshall) (x : UInt16) : Option Marshall := do
  let m ← m.rawbyte (byte16 x 8)
  m.rawbyte (byte16 x 0)

/-- `operator<<`. -/
def put : (t : Ty) → t.Val → Marshall → Option Marshall
  | .bool, (x : Bool), m => m.rawbyte (if x then 1 else 0)
  | .char, (x : Int8), m => m.rawbyte x.toUInt8
  | .uchar, (x : UInt8), m => m.rawbyte x
  | .short, (x : Int16), m => m.word16 x.toUInt16
  | .ushort, (x : UInt16), m => m.word16 x
  | .int, (x : Int32), m => m.word x.toUInt32
  | .uint, (x : UInt32), m => m.word x
  | .ulonglong, (x : UInt64), m => do
      let m ← m.word (x >>> 32).toUInt32
      m.word x.toUInt32
  | .string, (s : Bytes), m => do
      let m ← m.word (UInt32.ofNat s.length)
      m.rawbytes s
  | .attr, (a : Extents.Attr), m => do
      let m ← m.word a.atime
      let m ← m.word a.mtime
      let m ← m.word a.ctime
      m.word a.size
  | .vector c, (v : List c.Val), m => do
      let m ← m.word (UInt32.ofNat v.length)
      v.foldlM (fun m x => put c x m) m
  | .map a b, (d : SortedMap a.Val b.Val), m => do
      let m ← m.word (UInt32.ofNat d.entries.length)
      d.entries.foldlM (fun m p => do
        let m ← put a p.1 m
        put b p.2 m) m

/-- One value after the other. -/
def putItems (vs : List Item) (m : Marshall) : Option Marshall :=
  vs.foldlM (fun m v => put v.1 v.2 m) m

/-- `_ind` is moved to the place of the header, which `f` writes, and back. -/
def packHeader (f : Marshall → Option Marshall) (m : Marshall) : Option Marshall := do
  let m' ← f { m with ind := rpcSzSz }
  return { m' with ind := m.ind }

/-- `marshall::pack_req_header`. -/
def packReqHeader (h : ReqHeader) : Marshall → Option Marshall := packHeader fun m => do
  let m ← m.word h.xid
  let m ← m.word h.proc
  let m ← m.word h.cltNonce
  let m ← m.word h.srvNonce
  m.word h.xidRep

/-- `marshall::pack_reply_header`. -/
def packReplyHeader (h : ReplyHeader) : Marshall → Option Marshall := packHeader fun m => do
  let m ← m.word h.xid
  m.word h.ret.toUInt32

def pack (m : Marshall) : Header → Option Marshall
  | .req h => packReqHeader h m
  | .reply h => packReplyHeader h m

/-- What `take_buf` hands over: the bytes up to `_ind`. -/
def message (m : Marshall) : Bytes := (List.range m.ind).map m.buf

/-! ## What is written -/

/-- The block has room for all that was written, has not shrunk and is not too large. -/
structure Ok (m : Marshall) : Prop where
  ind : m.ind ≤ m.capa
  min : defaultRpcSz ≤ m.capa
  max : m.capa < 2 ^ 31

/-- `m'` is `m` with `bs` written at `_ind`. -/
structure Wrote (m : Marshall) (bs : Bytes) (m' : Marshall) : Prop where
  ok : m'.Ok
  capa : m.capa ≤ m'.capa
  ind : m'.ind = m.ind + bs.length
  buf : ∀ k, m'.buf k = if m.ind ≤ k then bs[k - m.ind]?.getD (m.buf k) else m.buf k

/-- A function that appends `bs` to a message that has room for it within the largest size. -/
def Writes (f : Marshall → Option Marshall) (bs : Bytes) : Prop :=
  ∀ m : Marshall, m.Ok → m.ind + bs.length ≤ 2 ^ 30 → ∃ m', f m = some m' ∧ m.Wrote bs m'

variable {m m' m'' : Marshall} {bs bs' : Bytes} {f g : Marshall → Option Marshall}

theorem ok_new (junk : Nat → UInt8) : (new junk).Ok :=
  ⟨show rpcHeaderSz ≤ defaultRpcSz by decide, le_rfl, show defaultRpcSz < 2 ^ 31 by decide⟩

theorem Wrote.trans (h : m.Wrote bs m') (h' : m'.Wrote bs' m'') : m.Wrote (bs ++ bs') m'' where
  ok := h'.ok
  capa := h.capa.trans h'.capa
  ind := by simp [h'.ind, h.ind, Nat.add_assoc]
  buf k := by
    rw [h'.buf, h.buf, h.ind, List.getElem?_append]
    by_cases hk : m.ind ≤ k
    · by_cases hk' : k - m.ind < bs.length
      · simp [hk, hk', show ¬ m.ind + bs.length ≤ k by omega]
      · simp [hk, hk', show m.ind + bs.length ≤ k by omega, Nat.sub_sub]
    · simp [hk, show ¬ m.ind + bs.length ≤ k by omega]

theorem Wrote.of_capa {capa : Nat} (h : Wrote { m with capa } bs m') (hcapa : m.capa ≤ capa) :
    m.Wrote bs m' :=
  ⟨h.ok, hcapa.trans h.capa, h.ind, h.buf⟩

theorem memcpy_wrote {p : Bytes} (hm : m.Ok) (h : m.ind + p.length ≤ m.capa) :
    ∃ m', m.memcpy p = some m' ∧ m.Wrote p m' :=
  ⟨_, if_pos h, ⟨h, hm.min, hm.max⟩, le_rfl, rfl, fun _ => rfl⟩

/-- The block grows and the bytes are copied. -/
theorem realloc_memcpy {p : Bytes} {capa : Nat} (hm : m.Ok) (hcapa : m.capa ≤ capa)
    (hmax : capa < 2 ^ 31) (h : m.ind + p.length ≤ capa) :
    ∃ m', (m.realloc capa >>= fun m => m.memcpy p) = some m' ∧ m.Wrote p m' := by
  obtain ⟨m', hm', hw⟩ := memcpy_wrote (m := { m with capa }) (p := p)
    ⟨hm.ind.trans hcapa, hm.min.trans hcapa, hmax⟩ h
  refine ⟨m', ?_, hw.of_capa hcapa⟩
  rw [realloc, if_pos hmax]
  exact hm'

theorem writes_rawbyte (x : UInt8) : Writes (fun m => m.rawbyte x) [x] := by
  intro m hm hsize
  have hind := hm.ind
  have hmin : 1024 ≤ m.capa := hm.min
  simp only [List.length_singleton] at hsize
  -- a full block has less than 2³⁰ bytes, so twice as many fit an `int`
  by_cases h : m.capa ≤ m.ind
  · simp only [rawbyte, if_pos h]
    exact realloc_memcpy hm (by omega) (by omega) (by simp only [List.length_singleton]; omega)
  · simp only [rawbyte, if_neg h]
    exact memcpy_wrote hm (by simp only [List.length_singleton]; omega)

theorem writes_rawbytes (p : Bytes) : Writes (fun m => m.rawbytes p) p := by
  intro m hm hsize
  have hind := hm.ind
  simp only [rawbytes, if_pos (show m.ind + p.length < 2 ^ 31 by omega)]
  by_cases h : m.capa < m.ind + p.length
  · simp only [if_pos h]
    by_cases hp : p.length < m.capa
    · rw [if_pos hp]
      exact realloc_memcpy hm (by omega) (by omega) (by omega)
    · rw [if_neg hp]
      exact realloc_memcpy hm (by omega) (by omega) (by omega)
  · simp only [if_neg h]
    exact memcpy_wrote hm (by omega)

theorem Writes.bind (hf : Writes f bs) (hg : Writes g bs') :
    Writes (fun m => f m >>= g) (bs ++ bs') := by
  intro m hm hsize
  rw [List.length_append] at hsize
  obtain ⟨m₁, h₁, hw₁⟩ := hf m hm (by omega)
  have hind := hw₁.ind
  obtain ⟨m₂, h₂, hw₂⟩ := hg m₁ hw₁.ok (by omega)
  exact ⟨m₂, by simp [h₁, h₂], hw₁.trans hw₂⟩

theorem writes_nil : Writes some [] := fun m hm _ =>
  ⟨m, rfl, hm, le_rfl, rfl, fun k => by simp⟩

theorem writes_foldlM {α : Type} {f : α → Marshall → Option Marshall} {enc : α → Bytes}
    (h : ∀ x, Writes (f x) (enc x)) (l : List α) :
    Writes (fun m => l.foldlM (fun m x => f x m) m) (l.flatMap enc) := by
  induction l with
  | nil => exact writes_nil
  | cons x l ih => exact (h x).bind ih

theorem writes_word (x : UInt32) : Writes (fun m => m.word x) (intBody x) :=
  (writes_rawbyte _).bind ((writes_rawbyte _).bind ((writes_rawbyte _).bind (writes_rawbyte _)))

theorem writes_word16 (x : UInt16) : Writes (fun m => m.word16 x) [byte16 x 8, byte16 x 0] :=
  (writes_rawbyte _).bind (writes_rawbyte _)

/-- `<<` appends the encoding of the value. -/
theorem writes_put : (t : Ty) → (v : t.Val) → Writes (put t v) (encode t v)
  | .bool, _ | .char, _ | .uchar, _ => writes_rawbyte _
  | .short, _ | .ushort, _ => writes_word16 _
  | .int, _ | .uint, _ => writes_word _
  | .ulonglong, _ => (writes_word _).bind (writes_word _)
  | .string, s => (writes_word _).bind (writes_rawbytes s)
  | .attr, _ =>
      (writes_word _).bind ((writes_word _).bind ((writes_word _).bind (writes_word _)))
  | .vector c, v => (writes_word _).bind (writes_foldlM (writes_put c) v)
  | .map a b, d => (writes_word _).bind
      (writes_foldlM (fun p => (writes_put a p.1).bind (writes_put b p.2)) d.entries)

theorem writes_putItems (vs : List Item) : Writes (putItems vs) (encodeItems vs) :=
  writes_foldlM (f := fun v : Item => put v.1 v.2) (fun v => writes_put v.1 v.2) vs

/-! ## How much is written

Whatever the size, a write that succeeds advances `_ind` by what it writes, and `_ind` stays an
`int`. -/

/-- `m'` has `k` bytes more than `m`, and the block is not too large. -/
def Grew (m : Marshall) (k : Nat) (m' : Marshall) : Prop :=
  m.capa < 2 ^ 31 → m'.ind = m.ind + k ∧ m'.ind ≤ m'.capa ∧ m'.capa < 2 ^ 31

theorem Grew.trans {k k' : Nat} (h : m.Grew k m') (h' : m'.Grew k' m'') : m.Grew (k + k') m'' := by
  intro hm
  obtain ⟨hind, -, hmax⟩ := h hm
  obtain ⟨hind', hle', hmax'⟩ := h' hmax
  exact ⟨by omega, hle', hmax'⟩

theorem memcpy_grew {p : Bytes} (h : m.memcpy p = some m') : m.Grew p.length m' := by
  intro hm
  unfold memcpy at h
  split at h
  · rename_i hle
    cases h
    exact ⟨rfl, hle, hm⟩
  · cases h

theorem realloc_memcpy_grew {p : Bytes} {capa : Nat}
    (h : (m.realloc capa >>= fun m => m.memcpy p) = some m') : m.Grew p.length m' := by
  obtain ⟨m₁, hm₁, h⟩ := Option.bind_eq_some_iff.mp h
  unfold realloc at hm₁
  split at hm₁
  · rename_i hcapa
    cases hm₁
    intro _
    exact memcpy_grew (m := { m with capa }) h hcapa
  · cases hm₁

theorem rawbyte_grew {x : UInt8} (h : m.rawbyte x = some m') : m.Grew 1 m' := by
  unfold rawbyte at h
  split at h
  · exact realloc_memcpy_grew h
  · exact memcpy_grew (p := [x]) h

theorem rawbytes_grew {p : Bytes} (h : m.rawbytes p = some m') : m.Grew p.length m' := by
  unfold rawbytes at h
  split at h
  · split at h
    · exact realloc_memcpy_grew h
    · exact memcpy_grew h
  · cases h

theorem word_grew {x : UInt32} (h : m.word x = some m') : m.Grew 4 m' := by
  simp only [word, Option.bind_eq_bind, Option.bind_eq_some_iff] at h
  obtain ⟨m₁, h₁, m₂, h₂, m₃, h₃, h₄⟩ := h
  exact (rawbyte_grew h₁).trans ((rawbyte_grew h₂).trans ((rawbyte_grew h₃).trans (rawbyte_grew h₄)))

/-! ## Messages -/

theorem length_message (m : Marshall) : m.message.length = m.ind := by
  simp [message]

theorem Wrote.message (h : m.Wrote bs m') : m'.message = m.message ++ bs := by
  apply List.ext_getElem?
  intro k
  rw [Marshall.message, Marshall.message, List.getElem?_append, List.getElem?_map, List.getElem?_map,
    h.ind, List.length_map, List.length_range]
  by_cases hk : k < m.ind
  · rw [if_pos hk, List.getElem?_range (by omega), List.getElem?_range hk]
    simp [h.buf, show ¬ m.ind ≤ k by omega]
  · rw [if_neg hk]
    by_cases hk' : k < m.ind + bs.length
    · rw [List.getElem?_range hk']
      simp [h.buf, show m.ind ≤ k by omega, show k - m.ind < bs.length by omega]
    · rw [List.getElem?_eq_none (by simp; omega), List.getElem?_eq_none (by omega), Option.map_none]

/-- Packing a header puts its bytes in the place of what was there. -/
theorem Writes.packHeader (hf : Writes f bs) (hm : m.Ok) (hind : rpcHeaderSz ≤ m.ind)
    (hbs : rpcSzSz + bs.length ≤ rpcHeaderSz) :
    ∃ m', packHeader f m = some m' ∧ m'.Ok ∧ m'.ind = m.ind ∧ m'.message =
      m.message.take rpcSzSz ++ (bs ++ m.message.drop (rpcSzSz + bs.length)) := by
  simp only [rpcHeaderSz, rpcSzSz] at hind hbs ⊢
  have hmind := hm.ind
  obtain ⟨m', hm', hw⟩ := hf { m with ind := 4 } ⟨by simp only; omega, hm.min, hm.max⟩
    (by simp only; omega)
  refine ⟨{ m' with ind := m.ind }, by simp [Marshall.packHeader, rpcSzSz, hm'],
    ⟨hmind.trans hw.capa, hw.ok.min, hw.ok.max⟩, rfl, ?_⟩
  have hbuf : ∀ k, m'.buf k = if 4 ≤ k then bs[k - 4]?.getD (m.buf k) else m.buf k := hw.buf
  apply List.ext_getElem?
  intro k
  by_cases hk : k < m.ind
  · simp only [message, List.getElem?_append, List.getElem?_map, List.getElem?_range hk,
      List.getElem?_drop, List.getElem?_take, List.length_take, List.length_map, List.length_range,
      hbuf, Option.map_some]
    by_cases h₁ : k < 4
    · simp [h₁, show ¬ 4 ≤ k by omega, hk]
    · by_cases h₂ : k - 4 < bs.length
      · simp [show ¬ k < min 4 m.ind by omega, show 4 ≤ k by omega,
          show k - min 4 m.ind = k - 4 by omega, h₂]
      · simp [show ¬ k < min 4 m.ind by omega, show 4 ≤ k by omega,
          show k - min 4 m.ind = k - 4 by omega, h₂,
          show 4 + bs.length + (k - 4 - bs.length) = k by omega, hk]
  · rw [List.getElem?_eq_none (by simp [message]; omega),
      List.getElem?_eq_none (by simp [message]; omega)]

/-- A header is packed by writing its bytes. -/
theorem pack_eq (h : Header) :
    ∃ f, (∀ m : Marshall, m.pack h = Marshall.packHeader f m) ∧ Writes f h.bytes := by
  cases h with
  | req h =>
      exact ⟨_, fun _ => rfl, (writes_word h.xid).bind ((writes_word h.proc).bind
        ((writes_word h.cltNonce).bind ((writes_word h.srvNonce).bind (writes_word h.xidRep))))⟩
  | reply h => exact ⟨_, fun _ => rfl, (writes_word h.xid).bind (writes_word h.ret.toUInt32)⟩

theorem pack_spec (hm : m.Ok) (hind : rpcHeaderSz ≤ m.ind) (h : Header) :
    ∃ m', m.pack h = some m' ∧ m'.Ok ∧ m'.ind = m.ind ∧ m'.message =
      m.message.take rpcSzSz ++ (h.bytes ++ m.message.drop (rpcSzSz + h.bytes.length)) := by
  obtain ⟨f, heq, hw⟩ := pack_eq h
  rw [heq]
  exact hw.packHeader hm hind h.bytes_length

end Marshall

end Yfs.Wire
