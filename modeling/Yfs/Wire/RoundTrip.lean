import Yfs.Wire.Unmarshall

/-!
# The round trip of a message

A message is marshalled by appending values and packing a header, before, between or after them.
Unpacking the header and reading values of the same types gives them back, and `okdone` holds after
the last value and not before (`marshall_unmarshall`).
-/

namespace Yfs.Wire

open Yfs.Lib
open Yfs.Rpc (Bytes intBody)

/-- Append some values, pack the header and append the others, in a block that contains `junk`. -/
def marshallAll (junk : Nat → UInt8) (vs : List Item) (h : Header) (vs' : List Item) :
    Option Marshall := do
  let m ← Marshall.putItems vs (.new junk)
  let m ← m.pack h
  m.putItems vs'

/-- Unpack a header and read values of the given types. -/
def unmarshallAll (k : HeaderKind) (ts : List Ty) : Get (Header × List Item) := do
  let h ← unpack k
  let vs ← itemsM get ts
  return (h, vs)

/-! ## The layout of a message -/

theorem encodeItems_append (vs vs' : List Item) :
    encodeItems (vs ++ vs') = encodeItems vs ++ encodeItems vs' := by
  simp [encodeItems]

/-- The size of the message, the header, and from `rpcHeaderSz` on the values. -/
theorem marshallAll_message (junk : Nat → UInt8) (vs : List Item) (h : Header) (vs' : List Item)
    (hsize : rpcHeaderSz + (encodeItems (vs ++ vs')).length ≤ 2 ^ 30) :
    ∃ m front pad, marshallAll junk vs h vs' = some m ∧ front.length = rpcSzSz ∧
      rpcSzSz + h.bytes.length + pad.length = rpcHeaderSz ∧
      m.message = front ++ (h.bytes ++ (pad ++ encodeItems (vs ++ vs'))) := by
  rw [encodeItems_append, List.length_append] at hsize
  -- the values before the header, the header in its place, the values after it
  obtain ⟨m₁, h₁, hw₁⟩ := Marshall.writes_putItems vs _ (Marshall.ok_new junk)
    (by simp only [Marshall.new]; omega)
  have hind₁ : m₁.ind = rpcHeaderSz + (encodeItems vs).length := hw₁.ind
  obtain ⟨m₂, h₂, hok₂, hind₂, hmsg₂⟩ := Marshall.pack_spec hw₁.ok (by omega) h
  obtain ⟨m₃, h₃, hw₃⟩ := Marshall.writes_putItems vs' m₂ hok₂ (by omega)
  have hnew : (Marshall.new junk).message.length = rpcHeaderSz := by
    simp [Marshall.message, Marshall.new]
  have hlen := h.bytes_length
  -- before and after the header, its 24 bytes are what `malloc` left there
  refine ⟨m₃, (Marshall.new junk).message.take rpcSzSz,
    (Marshall.new junk).message.drop (rpcSzSz + h.bytes.length), ?_, ?_, ?_, ?_⟩
  · simp [marshallAll, h₁, h₂, h₃]
  · rw [List.length_take, hnew]
    rfl
  · rw [List.length_drop, hnew]
    omega
  · rw [hw₃.message, hmsg₂, hw₁.message, encodeItems_append,
      List.take_append_of_le_length (by rw [hnew]; decide),
      List.drop_append_of_le_length (by rw [hnew]; exact hlen)]
    simp only [List.append_assoc]

/-! ## Headers -/

/-- The format of a header. -/
def Parse.header : HeaderKind → Parse Header
  | .req => do
      let xid ← Parse.word
      let proc ← Parse.word
      let cltNonce ← Parse.word
      let srvNonce ← Parse.word
      let xidRep ← Parse.word
      return .req { xid, proc, cltNonce, srvNonce, xidRep }
  | .reply => do
      let xid ← Parse.word
      let ret ← Parse.word
      return .reply { xid, ret := ret.toInt32 }

variable {sz : Nat}

theorem simulates_header : (k : HeaderKind) → Simulates sz (Get.header k) (Parse.header k)
  | .req => simulates_word.bind fun _ => simulates_word.bind fun _ => simulates_word.bind fun _ =>
      simulates_word.bind fun _ => simulates_word.bind fun _ => simulates_pure
  | .reply => simulates_word.bind fun _ => simulates_word.bind fun _ => simulates_pure

theorem readsBack_header : (h : Header) → ReadsBack sz (Parse.header h.kind) h.bytes h
  | .req h => (readsBack_word h.xid).bind ((readsBack_word h.proc).bind
      ((readsBack_word h.cltNonce).bind ((readsBack_word h.srvNonce).bind
        ((readsBack_word h.xidRep).map fun xidRep => Header.req { h with xidRep }))))
  | .reply h => by
      have hr := (readsBack_word h.xid : ReadsBack sz _ _ _).bind
        (g := fun xid => Parse.word >>= fun ret => pure (Header.reply { xid, ret := ret.toInt32 }))
        ((readsBack_word h.ret.toUInt32).map fun ret =>
          Header.reply { xid := h.xid, ret := ret.toInt32 })
      rwa [Int32.toInt32_toUInt32] at hr

/-- A header that is in the message is unpacked. -/
theorem unpack_of_header {u : Unmarshall} {k : HeaderKind} {h : Header} {rest : Bytes}
    (hok : u.ok = true) (hle : rpcSzSz ≤ u.buf.length)
    (hread : Parse.header k (u.buf.drop rpcSzSz) = .ok (h, rest)) :
    unpack k u = some (h, { u with ind := rpcHeaderSz }) := by
  have hsim := (simulates_header k { u with ind := rpcSzSz } rfl).1 hok hle
  simp only [hread] at hsim
  obtain ⟨ind, hget, -⟩ := hsim
  change (Get.header k { u with ind := rpcSzSz } >>= fun r =>
    some (r.1, { r.2 with ind := rpcHeaderSz })) = _
  rw [hget]
  rfl

/-! ## The round trip -/

theorem encodeItems_eq_nil {vs : List Item} (h : encodeItems vs = []) : vs = [] := by
  cases vs with
  | nil => rfl
  | cons v vs =>
      have := encode_length_pos v.1 v.2
      simp_all [encodeItems]

/-- Reading some of the values that follow a header; `okdone` says whether these are all. -/
theorem items_spec {u : Unmarshall} (hok : u.ok = true) (hle : u.ind ≤ u.buf.length)
    (hsz : u.buf.length < 2 ^ 32) {vs : List Item} (hdrop : u.buf.drop u.ind = encodeItems vs)
    {n : Nat} (hn : n ≤ vs.length) :
    ∃ u', itemsM get ((vs.take n).map Sigma.fst) u = some (vs.take n, u') ∧
      (u'.okdone = true ↔ n = vs.length) := by
  have hsplit : encodeItems vs = encodeItems (vs.take n) ++ encodeItems (vs.drop n) := by
    rw [← encodeItems_append, List.take_append_drop]
  have hlen := congrArg List.length hdrop
  rw [List.length_drop, hsplit] at hlen
  have hread := readsBack_items hsz (vs.take n) (encodeItems (vs.drop n)) (by omega)
  have hsim := (simulates_items hsz ((vs.take n).map Sigma.fst) u rfl).1 hok hle
  rw [hdrop, hsplit, hread] at hsim
  obtain ⟨ind, hget, hind, hrest⟩ := hsim
  refine ⟨_, hget, ?_⟩
  have hdone : ind = u.buf.length ↔ n = vs.length := by
    constructor
    · -- no value has an empty encoding
      rintro rfl
      rw [List.drop_length] at hrest
      have := List.drop_eq_nil_iff.mp (encodeItems_eq_nil hrest.symm)
      omega
    · rintro rfl
      rw [List.drop_length] at hrest
      have := List.drop_eq_nil_iff.mp hrest
      omega
  simpa [Unmarshall.okdone, hok] using hdone

/-- For every header and every sequence of values whose message has up to 2³⁰ bytes, marshalled with
the header packed at any point: reading values of the same types after unpacking the header gives
the header and the values, and `okdone` holds exactly after the last value. -/
theorem marshall_unmarshall (junk : Nat → UInt8) (vs : List Item) (h : Header) (vs' : List Item)
    (hsize : rpcHeaderSz + (encodeItems (vs ++ vs')).length ≤ 2 ^ 30) :
    ∃ m, marshallAll junk vs h vs' = some m ∧
      ∀ n, n ≤ (vs ++ vs').length → ∃ u,
        unmarshallAll h.kind (((vs ++ vs').take n).map Sigma.fst) (.new m.message) =
          some ((h, (vs ++ vs').take n), u) ∧
        (u.okdone = true ↔ n = (vs ++ vs').length) := by
  obtain ⟨m, front, pad, hm, hfront, hpad, hmsg⟩ := marshallAll_message junk vs h vs' hsize
  refine ⟨m, hm, fun n hn => ?_⟩
  have hbody : m.message.drop rpcHeaderSz = encodeItems (vs ++ vs') := by
    rw [hmsg, ← List.append_assoc, ← List.append_assoc, List.drop_left']
    simp only [List.length_append]
    omega
  have hlen : m.message.length = rpcHeaderSz + (encodeItems (vs ++ vs')).length := by
    rw [hmsg]
    simp only [List.length_append]
    omega
  have hread : Parse.header h.kind (m.message.drop rpcSzSz) =
      .ok (h, pad ++ encodeItems (vs ++ vs')) := by
    rw [hmsg, List.drop_left' hfront]
    have hback : ReadsBack m.message.length (Parse.header h.kind) h.bytes h := readsBack_header h
    exact hback _ (by simp [hmsg])
  have hunpack := unpack_of_header (u := .new m.message) rfl
    (by simp only [Unmarshall.new, rpcSzSz, rpcHeaderSz] at hlen ⊢; omega) hread
  obtain ⟨u, hitems, hdone⟩ := items_spec (u := { Unmarshall.new m.message with ind := rpcHeaderSz })
    rfl (by simp only [Unmarshall.new]; omega) (by simp only [Unmarshall.new]; omega) hbody hn
  refine ⟨u, ?_, hdone⟩
  change (unpack h.kind (.new m.message) >>= fun r =>
    itemsM get (((vs ++ vs').take n).map Sigma.fst) r.2 >>= fun s => some ((r.1, s.1), s.2)) = _
  rw [hunpack]
  change (itemsM get _ _ >>= _) = _
  rw [hitems]
  rfl

/-- A request with three arguments, the header packed after the first of them. -/
theorem marshall_unmarshall_request :
    ∃ m u, marshallAll (fun _ => 0) [⟨.int, (-12345 : Int32)⟩] (.req ⟨1, 2, 3, 4, 5⟩)
        [⟨.string, ([104, 105] : Bytes)⟩, ⟨.vector .bool, ([true, false] : List Bool)⟩] = some m ∧
      unmarshallAll .req [.int, .string, .vector .bool] (.new m.message) =
        some ((.req ⟨1, 2, 3, 4, 5⟩, [⟨.int, (-12345 : Int32)⟩, ⟨.string, ([104, 105] : Bytes)⟩,
          ⟨.vector .bool, ([true, false] : List Bool)⟩]), u) ∧ u.okdone = true := by
  obtain ⟨m, hm, h⟩ := marshall_unmarshall (fun _ => 0) [⟨.int, (-12345 : Int32)⟩]
    (.req ⟨1, 2, 3, 4, 5⟩)
    [⟨.string, ([104, 105] : Bytes)⟩, ⟨.vector .bool, ([true, false] : List Bool)⟩] (by decide)
  obtain ⟨u, hu, hdone⟩ := h 3 (by decide)
  exact ⟨m, u, hm, hu, hdone.mpr rfl⟩

end Yfs.Wire
