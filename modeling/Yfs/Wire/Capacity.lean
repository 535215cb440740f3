import Yfs.Wire.Marshall

/-!
# The capacity of the buffer

`rawbyte` doubles `_capa` when `_ind` has come up to it. `rawbytes` doubles it or adds `n` to it,
whichever its test says. `Cursor` is what the two do to `_capa` and `_ind`, with every store of a byte,
and as numbers without a bound; `Marshall` follows it for as long as nothing goes wrong
(`cursor_of_calls`).

Nothing does if the message, with its header, has at most 2³⁰ bytes (`capacity_suffices`). Its size
without the header is not enough: at 2³⁰ bytes the block may be full, and doubling it does not fit an
`int` (`capacity_overflows`).
-/

namespace Yfs.Wire

open Yfs.Lib
open Yfs.Rpc (Bytes intBody ReqHeader ReplyHeader)

/-- A call that writes to a `Marshall`. -/
inductive MarshallCall where
  | rawbyte (x : UInt8)
  | rawbytes (p : Bytes)
  | pack (x : UInt32)
  /-- `pack_req_header` or `pack_reply_header`. -/
  | header (h : Header)
  deriving DecidableEq, Repr

namespace MarshallCall

/-- How much a call appends. -/
def appended : MarshallCall → Nat
  | rawbyte _ => 1
  | rawbytes p => p.length
  | pack _ => 4
  | header _ => 0

/-- How much some calls append. -/
def size : List MarshallCall → Nat
  | [] => 0
  | c :: cs => c.appended + size cs

end MarshallCall

namespace Marshall

def call (m : Marshall) : MarshallCall → Option Marshall
  | .rawbyte x => m.rawbyte x
  | .rawbytes p => m.rawbytes p
  | .pack x => m.word x
  | .header h => m.pack h

def calls (m : Marshall) (cs : List MarshallCall) : Option Marshall := cs.foldlM call m

end Marshall

/-- A byte is stored at `index`, while the block has `capa` bytes. -/
structure Store where
  index : Nat
  capa : Nat
  deriving DecidableEq, Repr

/-- The store is within the block, and the size of the block is an `int`. -/
def Store.Inside (st : Store) : Prop := st.index < st.capa ∧ st.capa < 2 ^ 31

/-- `_capa` and `_ind` of a `marshall`. -/
structure Cursor where
  capa : Nat
  ind : Nat
  deriving DecidableEq, Repr

namespace Cursor

def new : Cursor := { capa := defaultRpcSz, ind := rpcHeaderSz }

/-- `rawbyte`. -/
def rawbyte (c : Cursor) : Cursor × List Store :=
  let capa := if c.ind ≥ c.capa then 2 * c.capa else c.capa
  ({ capa, ind := c.ind + 1 }, [{ index := c.ind, capa }])

/-- `rawbytes`, for `n` bytes. -/
def rawbytes (c : Cursor) (n : Nat) : Cursor × List Store :=
  let capa :=
    if c.ind + n > c.capa then
      if c.capa > n then 2 * c.capa else c.capa + n
    else c.capa
  ({ capa, ind := c.ind + n }, (List.range n).map fun i => { index := c.ind + i, capa })

/-- `rawbyte`, `n` times. -/
def rawbyteN : Nat → Cursor → Cursor × List Store
  | 0, c => (c, [])
  | n + 1, c => ((rawbyteN n c.rawbyte.1).1, c.rawbyte.2 ++ (rawbyteN n c.rawbyte.1).2)

/-- A header of `n` bytes. -/
def packHeader (c : Cursor) (n : Nat) : Cursor × List Store :=
  let r := rawbyteN n { c with ind := rpcSzSz }
  ({ r.1 with ind := c.ind }, r.2)

def call (c : Cursor) : MarshallCall → Cursor × List Store
  | .rawbyte _ => c.rawbyte
  | .rawbytes p => c.rawbytes p.length
  | .pack _ => c.rawbyteN 4
  | .header h => c.packHeader h.bytes.length

def calls : Cursor → List MarshallCall → Cursor × List Store
  | c, [] => (c, [])
  | c, k :: ks => ((calls (c.call k).1 ks).1, (c.call k).2 ++ (calls (c.call k).1 ks).2)

/-! ## The growth suffices -/

/-- There is room for all that was written, and the block has not shrunk and is not too large. -/
structure Ok (c : Cursor) : Prop where
  ind : c.ind ≤ c.capa
  min : defaultRpcSz ≤ c.capa
  max : c.capa < 2 ^ 31

/-- `n` bytes were written behind `c`, each of them within the block. -/
structure Wrote (c : Cursor) (n : Nat) (r : Cursor × List Store) : Prop where
  ok : r.1.Ok
  ind : r.1.ind = c.ind + n
  inside : ∀ st ∈ r.2, st.Inside

variable {c : Cursor} {m n : Nat}

theorem Wrote.trans {r r' : Cursor × List Store} (h : c.Wrote m r) (h' : r.1.Wrote n r') :
    c.Wrote (m + n) (r'.1, r.2 ++ r'.2) := by
  refine ⟨h'.ok, ?_, fun st hst => ?_⟩
  · rw [h'.ind, h.ind, Nat.add_assoc]
  · rcases List.mem_append.mp hst with hst | hst
    · exact h.inside st hst
    · exact h'.inside st hst

theorem wrote_rawbyte (h : c.Ok) (hsize : c.ind + 1 ≤ 2 ^ 30) : c.Wrote 1 c.rawbyte := by
  have hind := h.ind
  have hmin : 1024 ≤ c.capa := h.min
  have hmax := h.max
  have hcapa : c.ind < (if c.ind ≥ c.capa then 2 * c.capa else c.capa) ∧
      c.capa ≤ (if c.ind ≥ c.capa then 2 * c.capa else c.capa) ∧
      (if c.ind ≥ c.capa then 2 * c.capa else c.capa) < 2 ^ 31 := by
    split_ifs <;> omega
  refine ⟨⟨hcapa.1, hmin.trans hcapa.2.1, hcapa.2.2⟩, rfl, fun st hst => ?_⟩
  rw [List.mem_singleton.mp hst]
  exact ⟨hcapa.1, hcapa.2.2⟩

theorem wrote_rawbytes (h : c.Ok) (hsize : c.ind + n ≤ 2 ^ 30) : c.Wrote n (c.rawbytes n) := by
  have hind := h.ind
  have hmax := h.max
  -- in both cases of growth the block comes to less than twice of 2³⁰
  have hcapa : ∀ capa, capa = (if c.ind + n > c.capa then
      if c.capa > n then 2 * c.capa else c.capa + n else c.capa) →
      c.ind + n ≤ capa ∧ c.capa ≤ capa ∧ capa < 2 ^ 31 := by
    rintro capa rfl
    split_ifs <;> omega
  obtain ⟨hroom, hle, hlt⟩ := hcapa _ rfl
  refine ⟨⟨hroom, h.min.trans hle, hlt⟩, rfl, fun st hst => ?_⟩
  obtain ⟨i, hi, rfl⟩ := List.mem_map.mp hst
  have hin := List.mem_range.mp hi
  exact ⟨Nat.lt_of_lt_of_le (Nat.add_lt_add_left hin _) hroom, hlt⟩

theorem wrote_rawbyteN (h : c.Ok) (hsize : c.ind + n ≤ 2 ^ 30) : c.Wrote n (c.rawbyteN n) := by
  induction n generalizing c with
  | zero => exact ⟨h, rfl, by simp [rawbyteN]⟩
  | succ n ih =>
      have h₁ := wrote_rawbyte h (by omega)
      have hind := h₁.ind
      have h₂ := h₁.trans (ih h₁.ok (by omega))
      rw [Nat.add_comm 1 n] at h₂
      exact h₂

/-- A header has its place in every block, so the block stays as it is. -/
theorem capa_rawbyteN (h : c.ind + n ≤ c.capa) : (c.rawbyteN n).1.capa = c.capa := by
  induction n generalizing c with
  | zero => rfl
  | succ n ih =>
      have hcapa : c.rawbyte.1.capa = c.capa := if_neg (by omega)
      have hind : c.rawbyte.1.ind = c.ind + 1 := rfl
      exact (ih (by omega)).trans hcapa

theorem wrote_packHeader (h : c.Ok) (hn : rpcSzSz + n ≤ rpcHeaderSz) : c.Wrote 0 (c.packHeader n) := by
  have hmin := h.min
  simp only [rpcSzSz, rpcHeaderSz, defaultRpcSz] at hn hmin
  have h' : Ok { c with ind := rpcSzSz } := ⟨by simp only [rpcSzSz]; omega, h.min, h.max⟩
  have hw := wrote_rawbyteN h' (n := n) (by simp only [rpcSzSz]; omega)
  have hcapa : (rawbyteN n { c with ind := rpcSzSz }).1.capa = c.capa :=
    capa_rawbyteN (c := { c with ind := rpcSzSz }) (by simp only [rpcSzSz]; omega)
  refine ⟨⟨?_, hw.ok.min, hw.ok.max⟩, rfl, hw.inside⟩
  show c.ind ≤ (rawbyteN n { c with ind := rpcSzSz }).1.capa
  rw [hcapa]
  exact h.ind

theorem wrote_call (h : c.Ok) (k : MarshallCall) (hsize : c.ind + k.appended ≤ 2 ^ 30) :
    c.Wrote k.appended (c.call k) := by
  cases k with
  | rawbyte x => exact wrote_rawbyte h hsize
  | rawbytes p => exact wrote_rawbytes h hsize
  | pack x => exact wrote_rawbyteN h hsize
  | header hd => exact wrote_packHeader h hd.bytes_length

theorem wrote_calls (h : c.Ok) (ks : List MarshallCall)
    (hsize : c.ind + MarshallCall.size ks ≤ 2 ^ 30) :
    c.Wrote (MarshallCall.size ks) (c.calls ks) := by
  induction ks generalizing c with
  | nil => exact ⟨h, rfl, by simp [calls]⟩
  | cons k ks ih =>
      simp only [MarshallCall.size] at hsize ⊢
      have h₁ := wrote_call h k (by omega)
      have hind := h₁.ind
      exact h₁.trans (ih h₁.ok (by omega))

theorem ok_new : new.Ok := ⟨by decide, by decide, by decide⟩

theorem rawbyteN_add (m n : Nat) (c : Cursor) :
    (c.rawbyteN (m + n)).1 = ((c.rawbyteN m).1.rawbyteN n).1 := by
  induction m generalizing c with
  | zero => rw [Nat.zero_add]; rfl
  | succ m ih =>
      rw [Nat.succ_add]
      exact ih c.rawbyte.1

end Cursor

namespace Marshall

variable {m m' : Marshall} {bs : Bytes} {f g : Marshall → Option Marshall}

/-! ## `Marshall` follows the cursor -/

def cursor (m : Marshall) : Cursor := { capa := m.capa, ind := m.ind }

/-- Where `f` returns, the cursor has gone on as `r` says. -/
def Follows (f : Marshall → Option Marshall) (r : Cursor → Cursor) : Prop :=
  ∀ m m', m.capa < 2 ^ 31 → f m = some m' → m'.cursor = r m.cursor ∧ m'.capa < 2 ^ 31

theorem Follows.bind {r r' : Cursor → Cursor} (hf : Follows f r) (hg : Follows g r') :
    Follows (fun m => f m >>= g) (fun c => r' (r c)) := by
  intro m m'' hm h
  obtain ⟨m', h₁, h₂⟩ := Option.bind_eq_some_iff.mp h
  obtain ⟨heq, hm'⟩ := hf m m' hm h₁
  obtain ⟨heq', hm''⟩ := hg m' m'' hm' h₂
  exact ⟨by rw [heq', heq], hm''⟩

theorem follows_memcpy (p : Bytes) :
    Follows (fun m => m.memcpy p) (fun c => { c with ind := c.ind + p.length }) := by
  intro m m' hm h
  simp only [memcpy] at h
  split at h
  · cases h
    exact ⟨rfl, hm⟩
  · cases h

theorem follows_realloc (capa : Nat) :
    Follows (fun m => m.realloc capa) (fun c => { c with capa }) := by
  intro m m' hm h
  simp only [realloc] at h
  split at h
  · rename_i hcapa
    cases h
    exact ⟨rfl, hcapa⟩
  · cases h

theorem follows_rawbyte (x : UInt8) : Follows (fun m => m.rawbyte x) (fun c => c.rawbyte.1) := by
  intro m m' hm h
  simp only [rawbyte] at h
  split at h
  · rename_i hfull
    have hcapa : (if m.ind ≥ m.capa then 2 * m.capa else m.capa) = 2 * m.capa := if_pos hfull
    have := (follows_realloc (2 * m.capa)).bind (follows_memcpy [x]) m m' hm h
    simpa [Cursor.rawbyte, cursor, hcapa] using this
  · rename_i hfull
    have hcapa : (if m.ind ≥ m.capa then 2 * m.capa else m.capa) = m.capa := if_neg hfull
    have := follows_memcpy [x] m m' hm h
    simpa [Cursor.rawbyte, cursor, hcapa] using this

theorem follows_rawbytes (p : Bytes) :
    Follows (fun m => m.rawbytes p) (fun c => (c.rawbytes p.length).1) := by
  intro m m' hm h
  simp only [rawbytes] at h
  split at h
  · split at h
    · rename_i hgrow
      have := (follows_realloc _).bind (follows_memcpy p) m m' hm h
      simpa [Cursor.rawbytes, cursor, hgrow] using this
    · rename_i hgrow
      have := follows_memcpy p m m' hm h
      simpa [Cursor.rawbytes, cursor, hgrow] using this
  · cases h

theorem follows_word (x : UInt32) : Follows (fun m => m.word x) (fun c => (c.rawbyteN 4).1) :=
  (follows_rawbyte _).bind ((follows_rawbyte _).bind ((follows_rawbyte _).bind (follows_rawbyte _)))

theorem Follows.packHeader {n : Nat} (hf : Follows f (fun c => (c.rawbyteN n).1)) :
    Follows (packHeader f) (fun c => (c.packHeader n).1) := by
  intro m m'' hm h
  obtain ⟨m', h', heq⟩ := Option.bind_eq_some_iff.mp h
  cases heq
  obtain ⟨hcur, hmax⟩ := hf { m with ind := rpcSzSz } m' hm h'
  have hcapa : m'.capa = (Cursor.rawbyteN n { m.cursor with ind := rpcSzSz }).1.capa :=
    congrArg Cursor.capa hcur
  refine ⟨?_, hmax⟩
  show ({ capa := m'.capa, ind := m.ind } : Cursor) = _
  rw [hcapa]
  rfl

theorem follows_pack (h : Header) :
    Follows (fun m => m.pack h) (fun c => (c.packHeader h.bytes.length).1) := by
  cases h with
  | req h =>
      have hlen : (Header.req h).bytes.length = 20 := by simp [Header.bytes, intBody]
      have hw := (follows_word h.xid).bind ((follows_word h.proc).bind ((follows_word h.cltNonce).bind
        ((follows_word h.srvNonce).bind (follows_word h.xidRep))))
      simp only [← Cursor.rawbyteN_add] at hw
      rw [hlen]
      exact hw.packHeader
  | reply h =>
      have hlen : (Header.reply h).bytes.length = 8 := by simp [Header.bytes, intBody]
      have hw := (follows_word h.xid).bind (follows_word h.ret.toUInt32)
      simp only [← Cursor.rawbyteN_add] at hw
      rw [hlen]
      exact hw.packHeader

theorem follows_call (k : MarshallCall) : Follows (fun m => m.call k) (fun c => (c.call k).1) := by
  cases k with
  | rawbyte x => exact follows_rawbyte x
  | rawbytes p => exact follows_rawbytes p
  | pack x => exact follows_word x
  | header h => exact follows_pack h

/-- Where the calls return, `_capa` and `_ind` are what the cursor says. -/
theorem cursor_of_calls (ks : List MarshallCall) :
    Follows (fun m => m.calls ks) (fun c => (c.calls ks).1) := by
  induction ks with
  | nil =>
      intro m m' hm h
      cases h
      exact ⟨rfl, hm⟩
  | cons k ks ih => exact (follows_call k).bind ih

/-! ## Headers -/

/-- Packing a header leaves what comes after the place of the header. -/
theorem Writes.packHeader_buf (hf : Writes f bs) (hm : m.Ok) (hbs : rpcSzSz + bs.length ≤ rpcHeaderSz) :
    ∃ m', Marshall.packHeader f m = some m' ∧ m'.Ok ∧ m'.ind = m.ind ∧
      ∀ k, rpcHeaderSz ≤ k → m'.buf k = m.buf k := by
  have hmin := hm.min
  simp only [rpcHeaderSz, rpcSzSz, defaultRpcSz] at hbs hmin ⊢
  obtain ⟨m', hm', hw⟩ := hf { m with ind := 4 } ⟨by simp only; omega, hm.min, hm.max⟩
    (by simp only; omega)
  refine ⟨{ m' with ind := m.ind }, by simp [Marshall.packHeader, rpcSzSz, hm'],
    ⟨hm.ind.trans hw.capa, hw.ok.min, hw.ok.max⟩, rfl, fun k hk => ?_⟩
  have hbuf : m'.buf k = if 4 ≤ k then bs[k - 4]?.getD (m.buf k) else m.buf k := hw.buf k
  rw [List.getElem?_eq_none (by omega)] at hbuf
  simpa using hbuf

theorem pack_buf (hm : m.Ok) (h : Header) : ∃ m', m.pack h = some m' ∧ m'.Ok ∧ m'.ind = m.ind ∧
    ∀ k, rpcHeaderSz ≤ k → m'.buf k = m.buf k := by
  obtain ⟨f, heq, hw⟩ := pack_eq h
  rw [heq]
  exact hw.packHeader_buf hm h.bytes_length

theorem call_ok (hm : m.Ok) (k : MarshallCall) (hsize : m.ind + k.appended ≤ 2 ^ 30) :
    ∃ m', m.call k = some m' ∧ m'.Ok ∧ m'.ind = m.ind + k.appended := by
  have happ : ∀ {f : Marshall → Option Marshall} {bs : Bytes}, Writes f bs →
      m.ind + bs.length ≤ 2 ^ 30 → ∃ m', f m = some m' ∧ m'.Ok ∧ m'.ind = m.ind + bs.length := by
    intro f bs hf hsize
    obtain ⟨m', hm', hw⟩ := hf m hm hsize
    exact ⟨m', hm', hw.ok, hw.ind⟩
  cases k with
  | rawbyte x => exact happ (writes_rawbyte x) hsize
  | rawbytes p => exact happ (writes_rawbytes p) hsize
  | pack x => exact happ (writes_word x) hsize
  | header h =>
      obtain ⟨m', hm', hok, hind, -⟩ := pack_buf hm h
      exact ⟨m', hm', hok, hind⟩

theorem calls_ok (hm : m.Ok) (ks : List MarshallCall) (hsize : m.ind + MarshallCall.size ks ≤ 2 ^ 30) :
    ∃ m', m.calls ks = some m' ∧ m'.Ok := by
  induction ks generalizing m with
  | nil => exact ⟨m, rfl, hm⟩
  | cons k ks ih =>
      simp only [MarshallCall.size] at hsize
      obtain ⟨m₁, h₁, hok₁, hind₁⟩ := call_ok hm k (by omega)
      obtain ⟨m₂, h₂, hok₂⟩ := ih hok₁ (by omega)
      refine ⟨m₂, ?_, hok₂⟩
      show (m.call k >>= fun m => m.calls ks) = some m₂
      rw [h₁]
      exact h₂

end Marshall

/-- As long as the message with its header has at most 2³⁰ bytes: every byte is stored within the block
as it is then, and its size is an `int`; the calls return, with `_ind` and `_capa` as the stores say and
`_ind` at most `_capa`; and a header that is packed now leaves `_ind` and every byte after the header's
place. -/
theorem capacity_suffices (junk : Nat → UInt8) (ks : List MarshallCall)
    (hsize : rpcHeaderSz + MarshallCall.size ks ≤ 2 ^ 30) :
    (∀ st ∈ (Cursor.new.calls ks).2, st.index < st.capa ∧ st.capa < 2 ^ 31) ∧
    ∃ m, (Marshall.new junk).calls ks = some m ∧
      m.cursor = (Cursor.new.calls ks).1 ∧ m.ind ≤ m.capa ∧ m.capa < 2 ^ 31 ∧
      ∀ h, ∃ m', m.pack h = some m' ∧ m'.ind = m.ind ∧ ∀ k, rpcHeaderSz ≤ k → m'.buf k = m.buf k := by
  have hnew := Marshall.ok_new junk
  refine ⟨(Cursor.wrote_calls Cursor.ok_new ks hsize).inside, ?_⟩
  obtain ⟨m, hm, hok⟩ := Marshall.calls_ok hnew ks hsize
  obtain ⟨hcur, -⟩ := Marshall.cursor_of_calls ks (Marshall.new junk) m hnew.max hm
  refine ⟨m, hm, hcur, hok.ind, hok.max, fun h => ?_⟩
  obtain ⟨m', hm', -, hind, hbuf⟩ := Marshall.pack_buf hok h
  exact ⟨m', hm', hind, hbuf⟩

/-- A byte, two strings that make the block grow in the two ways there are, an `int` and a header. -/
theorem capacity_suffices_header :
    let p := List.replicate 1200 2
    let ks := [.rawbyte 1, .rawbytes p, .rawbytes p, .pack 7, .header (.reply { xid := 1, ret := 0 })]
    rpcHeaderSz + MarshallCall.size ks ≤ 2 ^ 30 ∧
    ∃ m, (Marshall.new fun _ => 0).calls ks = some m ∧ m.cursor = { capa := 4448, ind := 2429 } := by
  intro p ks
  have hp : p.length = 1200 := List.length_replicate
  have hsize : rpcHeaderSz + MarshallCall.size ks ≤ 2 ^ 30 := by
    simp [ks, MarshallCall.size, MarshallCall.appended, hp, rpcHeaderSz]
  obtain ⟨-, m, hm, hcur, -⟩ := capacity_suffices (fun _ => 0) ks hsize
  refine ⟨hsize, m, hm, hcur.trans ?_⟩
  have hheader : (Header.reply { xid := 1, ret := 0 }).bytes.length = 8 := rfl
  simp [ks, Cursor.calls, Cursor.call, Cursor.rawbytes, Cursor.rawbyte, Cursor.rawbyteN,
    Cursor.packHeader, Cursor.new, hp, hheader, defaultRpcSz, rpcHeaderSz, rpcSzSz]

/-! ## Without the header -/

/-- The block comes to 2³⁰ bytes and is filled, and then there is one more. -/
theorem calls_overfull {p q : Bytes} (hp : p.length = 2 ^ 30 - 1024) (hq : q.length = 1000) :
    MarshallCall.size [.rawbytes p, .rawbytes q, .rawbyte 0] = 2 ^ 30 - 23 ∧
    (Cursor.new.calls [.rawbytes p, .rawbytes q, .rawbyte 0]).1 =
      { capa := 2 ^ 31, ind := 2 ^ 30 + 1 } := by
  constructor
  · simp [MarshallCall.size, MarshallCall.appended, hp, hq]
  · simp [Cursor.calls, Cursor.call, Cursor.rawbytes, Cursor.rawbyte, Cursor.new, hp, hq, defaultRpcSz,
      rpcHeaderSz]

def overfull : List MarshallCall :=
  [.rawbytes (List.replicate (2 ^ 30 - 1024) 0), .rawbytes (List.replicate 1000 0), .rawbyte 0]

/-- Less than 2³⁰ bytes are appended, and yet `_capa` is doubled to 2³¹. -/
theorem capacity_overflows :
    MarshallCall.size overfull < 2 ^ 30 ∧ (Cursor.new.calls overfull).1.capa = 2 ^ 31 ∧
    ∀ junk, (Marshall.new junk).calls overfull = none := by
  obtain ⟨hsize, hcalls⟩ := calls_overfull (p := List.replicate (2 ^ 30 - 1024) 0)
    (q := List.replicate 1000 0) List.length_replicate List.length_replicate
  refine ⟨Nat.lt_of_le_of_lt (Nat.le_of_eq hsize) (by decide), congrArg Cursor.capa hcalls,
    fun junk => ?_⟩
  cases h : (Marshall.new junk).calls overfull with
  | none => rfl
  | some m =>
      obtain ⟨hcur, hmax⟩ :=
        Marshall.cursor_of_calls overfull (Marshall.new junk) m (Marshall.ok_new junk).max h
      have hcapa : m.capa = 2 ^ 31 := congrArg Cursor.capa (hcur.trans hcalls)
      omega

end Yfs.Wire
