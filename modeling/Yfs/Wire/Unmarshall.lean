import Yfs.Wire.Marshall
import Yfs.Wire.Parse

/-!
# Unmarshalling

`Unmarshall` is a message of `buf.length` bytes with a position and a flag that is cleared when a read
goes wrong; reading goes on all the same. `none` says that a byte outside of the message is accessed.
`get` is `>>` into a fresh variable.

`simulates_get` compares `get` with `parse`. Where `parse` gives a value, `get` gives it; where the
bytes are too short, `get` clears the flag and gives something; and where `parse` meets a wild size,
`get` reads outside of the message, because `rawbytes` computes the end of the string modulo 2³²
before it compares it with the size of the message.
-/

namespace Yfs.Wire

open Yfs.Lib
open Yfs.Rpc (Bytes intBody ReqHeader ReplyHeader)

structure Unmarshall where
  buf : Bytes
  ind : Nat
  ok : Bool
  deriving DecidableEq, Repr

abbrev Get := StateT Unmarshall Option

namespace Unmarshall

/-- `unmarshall(char *b, int sz)`. -/
def new (buf : Bytes) : Unmarshall := { buf, ind := 0, ok := true }

/-- `unmarshall::okdone`. -/
def okdone (u : Unmarshall) : Bool := u.ok && u.ind == u.buf.length

end Unmarshall

namespace Get

/-- A `char` as an `unsigned int`. -/
def signExtend (c : UInt8) : UInt32 := c.toInt8.toInt32.toUInt32

/-- `unmarshall::rawbyte`. -/
def rawbyte : Get UInt32 := fun u =>
  match u.buf[u.ind]? with
  -- past the end: `_ok` is cleared and the byte is 0
  | none => some (signExtend 0, { u with ok := false })
  | some c => some (signExtend c, { u with ind := u.ind + 1 })

/-- `unmarshall::rawbytes` into a fresh string. -/
def rawbytes (n : UInt32) : Get Bytes := fun u =>
  -- `(_ind+n) > (unsigned)_sz`, where the sum may wrap around
  if u.buf.length < (u.ind + n.toNat) % 2 ^ 32 then some ([], { u with ok := false })
  else if u.ind + n.toNat ≤ u.buf.length then
    some ((u.buf.drop u.ind).take n.toNat, { u with ind := u.ind + n.toNat })
  else none

/-- The rest of `operator>>` for strings when the size `n` was read. -/
def rawbytesIfOk (n : UInt32) : Get Bytes := fun u =>
  if u.ok then rawbytes n u else some ([], u)

/-- `operator>>` for the 16-bit types. -/
def word16 : Get UInt16 := do
  let a ← rawbyte
  let b ← rawbyte
  return ((a &&& 0xff) <<< 8).toUInt16 ||| (b &&& 0xff).toUInt16

/-- `operator>>` for the 32-bit types, and `unmarshall::unpack`. -/
def word : Get UInt32 := do
  let a ← rawbyte
  let b ← rawbyte
  let c ← rawbyte
  let d ← rawbyte
  return (a &&& 0xff) <<< 24 ||| (b &&& 0xff) <<< 16 ||| (c &&& 0xff) <<< 8 ||| (d &&& 0xff)

end Get

/-- `operator>>` into a fresh variable. -/
def get : (t : Ty) → Get t.Val
  | .bool => do
      let b ← Get.rawbyte
      return (b != 0 : Bool)
  | .char => do
      let b ← Get.rawbyte
      return b.toUInt8.toInt8
  | .uchar => do
      let b ← Get.rawbyte
      return b.toUInt8
  | .short => do
      let x ← Get.word16
      return x.toInt16
  | .ushort => Get.word16
  | .int => do
      let x ← Get.word
      return x.toInt32
  | .uint => Get.word
  | .ulonglong => do
      let h ← Get.word
      let l ← Get.word
      return word64 h l
  | .string => do
      let n ← Get.word
      Get.rawbytesIfOk n
  | .attr => do
      let atime ← Get.word
      let mtime ← Get.word
      let ctime ← Get.word
      let size ← Get.word
      return ({ atime, mtime, ctime, size } : Extents.Attr)
  | .vector c => do
      let n ← Get.word
      timesM (get c) n.toNat
  | .map a b => do
      let n ← Get.word
      let l ← timesM (pairM (get a) (get b)) n.toNat
      return (SortedMap.ofList l : SortedMap a.Val b.Val)

/-- The two kinds of headers. -/
inductive HeaderKind where
  | req
  | reply
  deriving DecidableEq, Repr

def Header.kind : Header → HeaderKind
  | req _ => .req
  | reply _ => .reply

/-- The fields of a header in order. -/
def Get.header : HeaderKind → Get Header
  | .req => do
      let xid ← Get.word
      let proc ← Get.word
      let cltNonce ← Get.word
      let srvNonce ← Get.word
      let xidRep ← Get.word
      return .req { xid, proc, cltNonce, srvNonce, xidRep }
  | .reply => do
      let xid ← Get.word
      let ret ← Get.word
      return .reply { xid, ret := ret.toInt32 }

/-- `unmarshall::unpack_req_header` and `unmarshall::unpack_reply_header`. -/
def unpack (k : HeaderKind) : Get Header := do
  modify fun u => { u with ind := rpcSzSz }
  let h ← Get.header k
  modify fun u => { u with ind := rpcHeaderSz }
  return h

/-! ## Bytes as unsigned numbers -/

theorem signExtend_toUInt8 (c : UInt8) : (Get.signExtend c).toUInt8 = c := by
  apply UInt8.toBitVec_inj.mp
  change (c.toBitVec.signExtend 32).setWidth 8 = c.toBitVec
  ext i hi
  simp
  grind

theorem signExtend_and (c : UInt8) : Get.signExtend c &&& 0xff = c.toUInt32 := by
  have hmask : ∀ x : UInt32, x &&& 0xff = x.toUInt8.toUInt32 := by
    intro x
    apply UInt32.toNat_inj.mp
    rw [UInt32.toNat_and, UInt8.toNat_toUInt32, UInt32.toNat_toUInt8]
    exact Nat.and_two_pow_sub_one_eq_mod x.toNat 8
  rw [hmask, signExtend_toUInt8]

theorem signExtend_ne_zero (c : UInt8) : (Get.signExtend c != 0) = (c != 0) := by
  by_cases h : c = 0
  · subst h
    rfl
  · have h' : Get.signExtend c ≠ 0 := fun h' => h (by rw [← signExtend_toUInt8 c, h']; rfl)
    rw [bne_iff_ne.mpr h, bne_iff_ne.mpr h']

/-! ## The code follows the format -/

/-- `g` gives something and leaves the flag cleared. -/
def Fails {α : Type} (g : Get α) (u : Unmarshall) : Prop :=
  ∃ x u', g u = some (x, u') ∧ u'.buf = u.buf ∧ u'.ok = false

/-- What `g` does from `u` where the format gives the answer. -/
def Answers {α : Type} (g : Get α) (u : Unmarshall) : Except Fault (α × Bytes) → Prop
  | .ok (x, rest) =>
      ∃ ind, g u = some (x, { u with ind }) ∧ ind ≤ u.buf.length ∧ u.buf.drop ind = rest
  | .error .short => Fails g u
  | .error .wild => g u = none

/-- In messages of `sz` bytes, `g` follows `f` while nothing has gone wrong, and otherwise goes on
without access to bytes outside of the message. -/
def Simulates {α : Type} (sz : Nat) (g : Get α) (f : Parse α) : Prop :=
  ∀ u : Unmarshall, u.buf.length = sz →
    (u.ok = true → u.ind ≤ sz → Answers g u (f (u.buf.drop u.ind))) ∧
    (u.ok = false → Fails g u)

variable {α β : Type} {sz : Nat} {g : Get α} {f : Parse α} {g' : α → Get β} {f' : α → Parse β}
  {u u₁ : Unmarshall} {x : α}

theorem simulates_pure : Simulates sz (pure x) (pure x) := fun u hu =>
  ⟨fun _ hind => ⟨u.ind, rfl, hu ▸ hind, rfl⟩, fun hok => ⟨x, u, rfl, rfl, hok⟩⟩

/-- The second of two readers decides. -/
theorem Fails.bind (h : g u = some (x, u₁)) (hbuf : u₁.buf = u.buf) (h' : Fails (g' x) u₁) :
    Fails (g >>= g') u := by
  obtain ⟨y, u₂, hy, hbuf', hok⟩ := h'
  refine ⟨y, u₂, ?_, hbuf'.trans hbuf, hok⟩
  change (g u >>= fun r => g' r.1 r.2) = _
  rw [h]
  exact hy

theorem Answers.bind {ind : Nat} {r : Except Fault (β × Bytes)}
    (h : g u = some (x, { u with ind })) (h' : Answers (g' x) { u with ind } r) :
    Answers (g >>= g') u r := by
  have hbind : (g >>= g') u = g' x { u with ind } := by
    change (g u >>= fun r => g' r.1 r.2) = _
    rw [h]
    rfl
  match r, h' with
  | .ok (y, rest), ⟨ind', hy, hle, hdrop⟩ => exact ⟨ind', hbind.trans hy, hle, hdrop⟩
  | .error .short, h' => exact Fails.bind h rfl h'
  | .error .wild, h' => exact hbind.trans h'

theorem Simulates.bind (hg : Simulates sz g f) (hg' : ∀ x, Simulates sz (g' x) (f' x)) :
    Simulates sz (g >>= g') (f >>= f') := by
  -- once the flag is cleared, `g'` goes on with whatever `g` gave
  have hfails : ∀ u : Unmarshall, u.buf.length = sz → Fails g u → Fails (g >>= g') u := by
    rintro u hu ⟨x, u₁, hx, hbuf, hok⟩
    exact Fails.bind hx hbuf ((hg' x u₁ (by rw [hbuf, hu])).2 hok)
  refine fun u hu => ⟨fun hok hind => ?_, fun hok => hfails u hu ((hg u hu).2 hok)⟩
  have h := (hg u hu).1 hok hind
  change Answers _ _ (f (u.buf.drop u.ind) >>= fun r => f' r.1 r.2)
  match hf : f (u.buf.drop u.ind) with
  | .ok (x, rest) =>
      rw [hf] at h
      obtain ⟨ind, hx, hle, hdrop⟩ := h
      have h' := (hg' x { u with ind } hu).1 hok (hu ▸ hle)
      rw [hdrop] at h'
      exact Answers.bind hx h'
  | .error .short =>
      rw [hf] at h
      exact hfails u hu h
  | .error .wild =>
      rw [hf] at h
      change (g u >>= fun r => g' r.1 r.2) = none
      rw [h]
      rfl

theorem Simulates.timesM (hg : Simulates sz g f) (n : Nat) :
    Simulates sz (timesM g n) (timesM f n) := by
  induction n with
  | zero => exact simulates_pure
  | succ n ih => exact hg.bind fun x => ih.bind fun l => simulates_pure

/-- A byte comes as a sign-extended number. -/
theorem simulates_rawbyte {h : UInt32 → Get α} {h' : UInt8 → Parse α}
    (hh : ∀ c, Simulates sz (h (Get.signExtend c)) (h' c)) :
    Simulates sz (Get.rawbyte >>= h) (Parse.byte >>= h') := by
  have hnone : ∀ u : Unmarshall, u.buf.length = sz → u.buf[u.ind]? = none →
      Fails (Get.rawbyte >>= h) u := by
    intro u hu hc
    have hraw : Get.rawbyte u = some (Get.signExtend 0, { u with ok := false }) := by
      simp only [Get.rawbyte, hc]
    exact Fails.bind hraw rfl ((hh 0 { u with ok := false } hu).2 rfl)
  have hsome : ∀ (u : Unmarshall) c, u.buf[u.ind]? = some c →
      Get.rawbyte u = some (Get.signExtend c, { u with ind := u.ind + 1 }) := by
    intro u c hc
    simp only [Get.rawbyte, hc]
  refine fun u hu => ⟨fun hok hind => ?_, fun hok => ?_⟩
  · match hc : u.buf[u.ind]? with
    | none =>
        rw [List.drop_eq_nil_of_le (List.getElem?_eq_none_iff.mp hc)]
        exact hnone u hu hc
    | some c =>
        obtain ⟨hlt, rfl⟩ := List.getElem?_eq_some_iff.mp hc
        rw [List.drop_eq_getElem_cons hlt]
        exact Answers.bind (hsome u _ hc) ((hh _ { u with ind := u.ind + 1 } hu).1 hok (hu ▸ hlt))
  · match hc : u.buf[u.ind]? with
    | none => exact hnone u hu hc
    | some c => exact Fails.bind (hsome u c hc) rfl ((hh c { u with ind := u.ind + 1 } hu).2 hok)

theorem simulates_uchar :
    Simulates sz (Get.rawbyte >>= fun b => pure b.toUInt8) Parse.byte := by
  rw [← bind_pure Parse.byte]
  refine simulates_rawbyte fun c => ?_
  rw [signExtend_toUInt8]
  exact simulates_pure

theorem simulates_word16 : Simulates sz Get.word16 Parse.word16 :=
  simulates_rawbyte fun a => simulates_rawbyte fun b => by
    have h : ((Get.signExtend a &&& 0xff) <<< 8).toUInt16 ||| (Get.signExtend b &&& 0xff).toUInt16 =
        Lib.word16 a b := by
      rw [signExtend_and, signExtend_and, Lib.word16]
      apply UInt16.toBitVec_inj.mp
      ext i hi
      simp
    rw [h]
    exact simulates_pure

theorem simulates_word : Simulates sz Get.word Parse.word :=
  simulates_rawbyte fun a => simulates_rawbyte fun b => simulates_rawbyte fun c =>
    simulates_rawbyte fun d => by
      simp only [signExtend_and]
      exact simulates_pure

/-- The end of the string is computed modulo 2³². -/
theorem simulates_rawbytesIfOk (hsz : sz < 2 ^ 32) (n : UInt32) :
    Simulates sz (Get.rawbytesIfOk n) (Parse.bytes sz n.toNat) := by
  refine fun u hu => ⟨fun hok hind => ?_, fun hok => ⟨[], u, ?_, rfl, hok⟩⟩
  · have hrun : Get.rawbytesIfOk n u = Get.rawbytes n u := by simp [Get.rawbytesIfOk, hok]
    have hn := n.toNat_lt
    have hpos : sz - (u.buf.drop u.ind).length = u.ind := by
      rw [List.length_drop, hu]
      omega
    unfold Parse.bytes
    rw [hpos]
    split_ifs with hwild hlen
    · -- the sum wraps around, so the check passes
      have hmod : (u.ind + n.toNat) % 2 ^ 32 = u.ind + n.toNat - 2 ^ 32 := by omega
      change _ = none
      rw [hrun, Get.rawbytes, hmod, if_neg (by omega), if_neg (by omega)]
    · rw [List.length_drop] at hlen
      have hmod : (u.ind + n.toNat) % 2 ^ 32 = u.ind + n.toNat := Nat.mod_eq_of_lt (by omega)
      refine ⟨u.ind + n.toNat, ?_, by omega, by rw [List.drop_drop]⟩
      rw [hrun, Get.rawbytes, hmod, if_neg (by omega), if_pos (by omega)]
    · rw [List.length_drop] at hlen
      have hmod : (u.ind + n.toNat) % 2 ^ 32 = u.ind + n.toNat := Nat.mod_eq_of_lt (by omega)
      refine ⟨[], { u with ok := false }, ?_, rfl, rfl⟩
      rw [hrun, Get.rawbytes, hmod, if_pos (by omega)]
  · simp [Get.rawbytesIfOk, hok]

/-- `>>` follows the format. -/
theorem simulates_get (hsz : sz < 2 ^ 32) : (t : Ty) → Simulates sz (get t) (parse sz t)
  | .bool => simulates_rawbyte fun c => by
      rw [signExtend_ne_zero]
      exact simulates_pure
  | .char => simulates_rawbyte fun c => by
      rw [signExtend_toUInt8]
      exact simulates_pure
  | .uchar => simulates_uchar
  | .short => simulates_word16.bind fun _ => simulates_pure
  | .ushort => simulates_word16
  | .int => simulates_word.bind fun _ => simulates_pure
  | .uint => simulates_word
  | .ulonglong => simulates_word.bind fun _ => simulates_word.bind fun _ => simulates_pure
  | .string => simulates_word.bind fun n => simulates_rawbytesIfOk hsz n
  | .attr => simulates_word.bind fun _ => simulates_word.bind fun _ => simulates_word.bind fun _ =>
      simulates_word.bind fun _ => simulates_pure
  | .vector c => simulates_word.bind fun n => (simulates_get hsz c).timesM n.toNat
  | .map a b => simulates_word.bind fun n => ((simulates_get hsz a).bind fun _ =>
      (simulates_get hsz b).bind fun _ => simulates_pure).timesM n.toNat |>.bind fun _ =>
        simulates_pure

theorem simulates_items (hsz : sz < 2 ^ 32) (ts : List Ty) :
    Simulates sz (itemsM get ts) (itemsM (parse sz) ts) := by
  induction ts with
  | nil => exact simulates_pure
  | cons t ts ih => exact (simulates_get hsz t).bind fun _ => ih.bind fun _ => simulates_pure

end Yfs.Wire
