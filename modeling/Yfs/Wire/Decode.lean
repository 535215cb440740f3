import Yfs.Wire.RoundTrip

/-!
# Decoding the arguments of a handler

A registered handler reads its arguments one after the other and calls its method if `okdone` holds
then. Given the memory for whatever it reads, it calls the method exactly if the message is the
encoding of arguments of the right types, and answers `unmarshal_args_failure` otherwise, unless the
way through the message meets the size of a string that takes its end to 2³² or beyond (`fn_spec`).
-/

namespace Yfs.Wire

open Yfs.Lib
open Yfs.Rpc (Bytes)

/-- `MAX_PDU`. -/
def maxPdu : Nat := 10 <<< 20

/-- The arguments of a handler: the message, from the end of the header on. -/
def args (buf : Bytes) : Unmarshall :=
  { buf, ind := rpcHeaderSz, ok := rpcHeaderSz ≤ buf.length }

/-- What a handler returns, and what it has called its method with. -/
structure FnResult where
  ret : Int32
  called : Option (List Item)

/-- `fn` of a handler for arguments of types `ts`, which calls `meth`, with memory for any vector. -/
def fn (ts : List Ty) (meth : List Item → Int32) (u : Unmarshall) : Option FnResult := do
  let (vs, u) ← itemsM get ts u
  if !u.okdone then return { ret := Rpc.unmarshalArgsFailure, called := none }
  return { ret := meth vs, called := some vs }

/-- `bs` is the encodings of `vs`, which have the types `ts`. -/
def Encodes (ts : List Ty) (bs : Bytes) (vs : List Item) : Prop :=
  vs.map Sigma.fst = ts ∧ bs = encodeItems vs

/-! ## The format decides -/

variable {ts : List Ty} {buf : Bytes}

/-- Encoded arguments are what the format reads, and it reads to the end. -/
theorem encodes_iff (hlen : buf.length < 2 ^ 32) (hts : ∀ t ∈ ts, t.isArg = true) {vs : List Item} :
    Encodes ts (buf.drop rpcHeaderSz) vs ↔
      itemsM (parse buf.length) ts (buf.drop rpcHeaderSz) = .ok (vs, []) := by
  constructor
  · rintro ⟨rfl, hbs⟩
    have hle : (encodeItems vs ++ []).length ≤ buf.length := by
      rw [List.append_nil, ← hbs, List.length_drop]
      omega
    have h := readsBack_items hlen vs [] hle
    rwa [List.append_nil, ← hbs] at h
  · intro h
    obtain ⟨htypes, hbs⟩ := sound_items hts h
    exact ⟨htypes, by rwa [List.append_nil] at hbs⟩

theorem fn_of_fails {meth : List Item → Int32} {u : Unmarshall} (h : Fails (itemsM get ts) u) :
    fn ts meth u = some { ret := Rpc.unmarshalArgsFailure, called := none } := by
  obtain ⟨vs, u', hget, -, hok⟩ := h
  simp [fn, hget, Unmarshall.okdone, hok]

theorem fn_of_get {meth : List Item → Int32} {u : Unmarshall} {vs : List Item} {ind : Nat}
    (hok : u.ok = true) (hle : ind ≤ u.buf.length)
    (h : itemsM get ts u = some (vs, { u with ind })) :
    fn ts meth u = some (if u.buf.drop ind = [] then { ret := meth vs, called := some vs }
      else { ret := Rpc.unmarshalArgsFailure, called := none }) := by
  have hdone : u.buf.drop ind = [] ↔ ind = u.buf.length := by
    rw [List.drop_eq_nil_iff]
    omega
  by_cases hind : ind = u.buf.length <;> simp [fn, h, Unmarshall.okdone, hok, hdone, hind]

theorem parse_nil {sz : Nat} (t : Ty) : parse sz t [] = .error .short := by
  cases t <;> rfl

theorem items_nil {sz : Nat} (hne : ts ≠ []) : itemsM (parse sz) ts [] = .error .short := by
  obtain ⟨t, ts, rfl⟩ := List.exists_cons_of_ne_nil hne
  change (parse sz t [] >>= _) = _
  rw [parse_nil]
  rfl

/-- What the handler does, by what the format says of the message. -/
theorem fn_spec (hlen : buf.length < 2 ^ 32) (hne : ts ≠ []) (meth : List Item → Int32) :
    fn ts meth (args buf) = match itemsM (parse buf.length) ts (buf.drop rpcHeaderSz) with
      | .ok (vs, []) => some { ret := meth vs, called := some vs }
      | .error .wild => none
      | _ => some { ret := Rpc.unmarshalArgsFailure, called := none } := by
  have hsim := simulates_items hlen ts (args buf) rfl
  by_cases hheader : rpcHeaderSz ≤ buf.length
  · have hok : (args buf).ok = true := by simp [args, hheader]
    have hans := hsim.1 hok hheader
    change Answers _ _ (itemsM (parse buf.length) ts (buf.drop rpcHeaderSz)) at hans
    match hparse : itemsM (parse buf.length) ts (buf.drop rpcHeaderSz) with
    | .ok (vs, rest) =>
        rw [hparse] at hans
        obtain ⟨ind, hget, hle, hrest⟩ := hans
        rw [fn_of_get hok hle hget, hrest]
        cases rest <;> rfl
    | .error .short =>
        rw [hparse] at hans
        exact fn_of_fails hans
    | .error .wild =>
        rw [hparse] at hans
        change itemsM get ts (args buf) = none at hans
        simp [fn, hans]
  · -- no room for a header: the flag is clear from the start, and there is no byte to read
    rw [fn_of_fails (hsim.2 (by simp [args, hheader])), List.drop_eq_nil_of_le (by omega),
      items_nil hne]

end Yfs.Wire
