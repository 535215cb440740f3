import Yfs.Lib.Reader
import Yfs.Wire.Types

/-!
# Reading the wire format

`parse` reads the encoding of a value of a given type from the front of a list of bytes. It fails in
two ways: the bytes end too early (`short`), or the size in front of a string is so large that the
string would end at position 2³² or later (`wild`). Positions count from the start of a message of
`sz` bytes, of which the list is the end.

Every encoding is read back (`readsBack_parse`), and for the types of arguments nothing else is
accepted (`sound_parse`).
-/

namespace Yfs.Wire

open Yfs.Lib
open Yfs.Rpc (Bytes intBody)

/-- Read a value of each type. -/
def itemsM {m : Type → Type} [Monad m] (f : (t : Ty) → m t.Val) : List Ty → m (List Item)
  | [] => pure []
  | t :: ts => do
      let v ← f t
      let vs ← itemsM f ts
      return ⟨t, v⟩ :: vs

/-- Why bytes are not read. -/
inductive Fault where
  | short
  | wild
  deriving DecidableEq, Repr

abbrev Parse := Reader Fault UInt8

namespace Parse

def byte : Parse UInt8
  | [] => .error .short
  | b :: bs => .ok (b, bs)

def word16 : Parse UInt16 := do
  let a ← byte
  let b ← byte
  return Lib.word16 a b

def word : Parse UInt32 := do
  let a ← byte
  let b ← byte
  let c ← byte
  let d ← byte
  return Lib.word a b c d

/-- `n` bytes, in a message of `sz` bytes. -/
def bytes (sz n : Nat) : Parse Bytes := fun bs =>
  if 2 ^ 32 ≤ sz - bs.length + n then .error .wild
  else if n ≤ bs.length then .ok (bs.take n, bs.drop n)
  else .error .short

end Parse

/-- Read a value, in a message of `sz` bytes. -/
def parse (sz : Nat) : (t : Ty) → Parse t.Val
  | .bool => do
      let b ← Parse.byte
      return (b != 0 : Bool)
  | .char => do
      let b ← Parse.byte
      return b.toInt8
  | .uchar => Parse.byte
  | .short => do
      let x ← Parse.word16
      return x.toInt16
  | .ushort => Parse.word16
  | .int => do
      let x ← Parse.word
      return x.toInt32
  | .uint => Parse.word
  | .ulonglong => do
      let h ← Parse.word
      let l ← Parse.word
      return word64 h l
  | .string => do
      let n ← Parse.word
      Parse.bytes sz n.toNat
  | .attr => do
      let atime ← Parse.word
      let mtime ← Parse.word
      let ctime ← Parse.word
      let size ← Parse.word
      return ({ atime, mtime, ctime, size } : Extents.Attr)
  | .vector c => do
      let n ← Parse.word
      timesM (parse sz c) n.toNat
  | .map a b => do
      let n ← Parse.word
      let l ← timesM (pairM (parse sz a) (parse sz b)) n.toNat
      return (SortedMap.ofList l : SortedMap a.Val b.Val)

/-! ## Encodings are read back -/

variable {sz : Nat}

theorem readsBack_byte (b : UInt8) : ReadsBack sz Parse.byte [b] b := fun _ _ => rfl

theorem readsBack_word16 (x : UInt16) :
    ReadsBack sz Parse.word16 [byte16 x 8, byte16 x 0] x := by
  intro rest _
  change Except.ok (Lib.word16 (byte16 x 8) (byte16 x 0), rest) = _
  rw [word16_byte16]

theorem readsBack_word (x : UInt32) : ReadsBack sz Parse.word (intBody x) x := by
  intro rest _
  change Except.ok (Lib.word (byte x 24) (byte x 16) (byte x 8) (byte x 0), rest) = _
  rw [word_byte]

theorem readsBack_bytes (hsz : sz < 2 ^ 32) (s : Bytes) :
    ReadsBack sz (Parse.bytes sz s.length) s s := by
  intro rest hlen
  simp only [List.length_append] at hlen
  simp only [Parse.bytes, List.length_append]
  rw [if_neg (by omega), if_pos (by omega), List.take_left, List.drop_left]

/-- A size word and what comes after it. -/
theorem readsBack_sized {α : Type} {f : Nat → Parse α} {bs : Bytes} {x : α} {n : Nat}
    (hsz : sz < 2 ^ 32) (hn : n ≤ bs.length) (h : ReadsBack sz (f n) bs x) :
    ReadsBack sz (Parse.word >>= fun n => f n.toNat) (sizeWord n ++ bs) x := by
  intro rest hlen
  have hlt : n < 2 ^ 32 := by
    simp only [List.length_append] at hlen
    omega
  have hsize : (UInt32.ofNat n).toNat = n := UInt32.toNat_ofNat_of_lt hlt
  exact (readsBack_word (UInt32.ofNat n)).bind (g := fun n => f n.toNat) (by rwa [hsize]) rest hlen

/-- Every encoding is read back. -/
theorem readsBack_parse (hsz : sz < 2 ^ 32) :
    (t : Ty) → (v : t.Val) → ReadsBack sz (parse sz t) (encode t v) v
  | .bool, (v : Bool) => by
      have h := (readsBack_byte (if v then 1 else 0) : ReadsBack sz _ _ _).map (· != 0)
      cases v <;> exact h
  | .char, (v : Int8) => by
      have h := (readsBack_byte v.toUInt8 : ReadsBack sz _ _ _).map UInt8.toInt8
      rwa [Int8.toInt8_toUInt8] at h
  | .uchar, v => readsBack_byte v
  | .short, (v : Int16) => by
      have h := (readsBack_word16 v.toUInt16 : ReadsBack sz _ _ _).map UInt16.toInt16
      rwa [Int16.toInt16_toUInt16] at h
  | .ushort, v => readsBack_word16 v
  | .int, (v : Int32) => by
      have h := (readsBack_word v.toUInt32 : ReadsBack sz _ _ _).map UInt32.toInt32
      rwa [Int32.toInt32_toUInt32] at h
  | .uint, v => readsBack_word v
  | .ulonglong, (v : UInt64) => by
      have h := (readsBack_word (v >>> 32).toUInt32 : ReadsBack sz _ _ _).bind
        (g := fun h => Parse.word >>= fun l => pure (word64 h l))
        ((readsBack_word v.toUInt32).map (word64 (v >>> 32).toUInt32))
      rwa [word64_halves] at h
  | .string, (s : Bytes) => readsBack_sized hsz le_rfl (readsBack_bytes hsz s)
  | .attr, (a : Extents.Attr) => (readsBack_word a.atime).bind ((readsBack_word a.mtime).bind
      ((readsBack_word a.ctime).bind ((readsBack_word a.size).map fun size => { a with size })))
  | .vector c, (v : List c.Val) =>
      readsBack_sized hsz (length_le_flatMap (encode_length_pos c) v)
        (readsBack_timesM (readsBack_parse hsz c) v)
  | .map a b, (d : SortedMap a.Val b.Val) => by
      have hpair : ∀ p : a.Val × b.Val,
          ReadsBack sz (pairM (parse sz a) (parse sz b)) (encode a p.1 ++ encode b p.2) p :=
        fun p => (readsBack_parse hsz a p.1).pairM (readsBack_parse hsz b p.2)
      have hpos : ∀ p : a.Val × b.Val, 0 < (encode a p.1 ++ encode b p.2).length := fun p => by
        rw [List.length_append]
        exact Nat.add_pos_left (encode_length_pos a p.1) _
      have h := readsBack_sized hsz (length_le_flatMap hpos d.entries)
        (f := fun n => timesM (pairM (parse sz a) (parse sz b)) n >>= fun l =>
          pure (SortedMap.ofList l)) ((readsBack_timesM hpair d.entries).map SortedMap.ofList)
      rwa [SortedMap.ofList_entries] at h

theorem readsBack_items (hsz : sz < 2 ^ 32) (vs : List Item) :
    ReadsBack sz (itemsM (parse sz) (vs.map Sigma.fst)) (encodeItems vs) vs := by
  induction vs with
  | nil => exact readsBack_pure
  | cons v vs ih => exact (readsBack_parse hsz v.1 v.2).bind (ih.map (v :: ·))

/-! ## Nothing else is accepted -/

/-- The types of arguments: fixed-width integers, strings and vectors of these. -/
def Ty.isArg : Ty → Bool
  | bool | attr | map _ _ => false
  | vector c => c.isArg
  | _ => true

theorem sound_byte : Sound Parse.byte fun b => [b] := by
  intro bs b rest h
  cases bs with
  | nil => cases h
  | cons a bs =>
      cases h
      rfl

theorem sound_word16 : Sound Parse.word16 fun x => [byte16 x 8, byte16 x 0] := by
  intro bs x rest h
  obtain ⟨a, r₁, ha, h⟩ := Reader.bind_eq_ok.mp h
  obtain ⟨b, r₂, hb, h⟩ := Reader.bind_eq_ok.mp h
  cases h
  obtain ⟨h₁, h₂⟩ := byte16_word16 a b
  simp only [sound_byte _ _ _ ha, sound_byte _ _ _ hb, h₁, h₂]
  rfl

theorem sound_word : Sound Parse.word intBody := by
  intro bs x rest h
  obtain ⟨a, r₁, ha, h⟩ := Reader.bind_eq_ok.mp h
  obtain ⟨b, r₂, hb, h⟩ := Reader.bind_eq_ok.mp h
  obtain ⟨c, r₃, hc, h⟩ := Reader.bind_eq_ok.mp h
  obtain ⟨d, r₄, hd, h⟩ := Reader.bind_eq_ok.mp h
  cases h
  obtain ⟨h₁, h₂, h₃, h₄⟩ := byte_word a b c d
  rw [sound_byte _ _ _ ha, sound_byte _ _ _ hb, sound_byte _ _ _ hc, sound_byte _ _ _ hd, intBody,
    h₁, h₂, h₃, h₄]
  rfl

theorem sizeWord_toNat (n : UInt32) : sizeWord n.toNat = intBody n := by
  rw [sizeWord, UInt32.ofNat_toNat]

/-- What is read as an argument is its encoding. -/
theorem sound_parse : (t : Ty) → t.isArg = true → Sound (parse sz t) (encode t)
  | .char, _ => by
      intro bs x rest h
      obtain ⟨b, r, hb, h⟩ := Reader.bind_eq_ok.mp h
      cases h
      rw [sound_byte _ _ _ hb]
      simp [encode]
  | .uchar, _ => sound_byte
  | .short, _ => by
      intro bs x rest h
      obtain ⟨y, r, hy, h⟩ := Reader.bind_eq_ok.mp h
      cases h
      rw [sound_word16 _ _ _ hy]
      simp [encode]
  | .ushort, _ => sound_word16
  | .int, _ => by
      intro bs x rest h
      obtain ⟨y, r, hy, h⟩ := Reader.bind_eq_ok.mp h
      cases h
      rw [sound_word _ _ _ hy]
      simp [encode]
  | .uint, _ => sound_word
  | .ulonglong, _ => by
      intro bs x rest h
      obtain ⟨hi, r₁, hh, h⟩ := Reader.bind_eq_ok.mp h
      obtain ⟨lo, r₂, hl, h⟩ := Reader.bind_eq_ok.mp h
      cases h
      rw [sound_word _ _ _ hh, sound_word _ _ _ hl]
      simp [encode, halves_word64]
  | .string, _ => by
      intro bs x rest h
      obtain ⟨n, r, hn, h⟩ := Reader.bind_eq_ok.mp h
      -- only the branch that takes `n` bytes gives a string
      unfold Parse.bytes at h
      split_ifs at h with hwild hlen
      cases h
      rw [sound_word _ _ _ hn, encode, List.length_take, Nat.min_eq_left hlen, sizeWord_toNat]
      simp
  | .vector c, hc => by
      intro bs x rest h
      obtain ⟨n, r, hn, h⟩ := Reader.bind_eq_ok.mp h
      obtain ⟨hlen, hr⟩ := (sound_parse c hc).timesM h
      simp only [encode]
      rw [sound_word _ _ _ hn, hr, hlen, sizeWord_toNat, List.append_assoc]

theorem sound_items {ts : List Ty} (hts : ∀ t ∈ ts, t.isArg = true) {bs rest : Bytes}
    {vs : List Item} (h : itemsM (parse sz) ts bs = .ok (vs, rest)) :
    vs.map Sigma.fst = ts ∧ bs = encodeItems vs ++ rest := by
  induction ts generalizing bs vs with
  | nil =>
      cases h
      exact ⟨rfl, rfl⟩
  | cons t ts ih =>
      obtain ⟨v, r, hv, h⟩ := Reader.bind_eq_ok.mp h
      obtain ⟨vs', r', hvs, h⟩ := Reader.bind_eq_ok.mp h
      cases h
      obtain ⟨htypes, hr⟩ := ih (fun t ht => hts t (by simp [ht])) hvs
      refine ⟨by simp [htypes], ?_⟩
      rw [sound_parse t (hts t (by simp)) _ _ _ hv, hr]
      simp [encodeItems]

end Yfs.Wire
