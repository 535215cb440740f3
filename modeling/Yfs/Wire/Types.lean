import Yfs.Extents.Server
import Yfs.Lib.SortedMap

/-!
# The types of the wire format

`Ty` names the types that `<<` and `>>` are defined for, and `Ty.Val` is the type of their values. A
`std::map` is kept in the order of its keys, so a type of values comes with the order that `<` gives
it. (`extent_protocol::attr` has no `<` and cannot be a key; here it is given one.)

`encode` is the wire format: numbers most significant byte first, strings, vectors and maps with
their size in front.
-/

namespace Yfs.Wire

open Yfs.Lib
open Yfs.Rpc (Bytes intBody)

/-- The types of arguments and results. -/
inductive Ty where
  | bool
  | char
  | uchar
  | short
  | ushort
  | int
  | uint
  | ulonglong
  | string
  | attr
  | vector (c : Ty)
  | map (a b : Ty)
  deriving DecidableEq, Repr

/-- A type of values with the order of its values. -/
structure Sem where
  carrier : Type
  order : LinearOrder carrier

/-- The order of numbers that are the same if `f` of them is. -/
def Sem.lift {α β : Type} [LinearOrder β] (f : α → β) (h : Function.Injective f) : Sem :=
  ⟨α, LinearOrder.lift' f h⟩

theorem attr_injective : Function.Injective
    fun a : Extents.Attr => [a.atime.toNat, a.mtime.toNat, a.ctime.toNat, a.size.toNat] := by
  rintro ⟨a, b, c, d⟩ ⟨a', b', c', d'⟩ h
  simpa [UInt32.toNat_inj] using h

def Ty.sem : Ty → Sem
  | bool => ⟨Bool, inferInstance⟩
  | char => .lift Int8.toInt fun _ _ => Int8.toInt_inj.mp
  | uchar => .lift UInt8.toNat fun _ _ => UInt8.toNat_inj.mp
  | short => .lift Int16.toInt fun _ _ => Int16.toInt_inj.mp
  | ushort => .lift UInt16.toNat fun _ _ => UInt16.toNat_inj.mp
  | int => .lift Int32.toInt fun _ _ => Int32.toInt_inj.mp
  | uint => .lift UInt32.toNat fun _ _ => UInt32.toNat_inj.mp
  | ulonglong => .lift UInt64.toNat fun _ _ => UInt64.toNat_inj.mp
  | string => .lift (List.map UInt8.toNat)
      (List.map_injective_iff.mpr fun _ _ => UInt8.toNat_inj.mp)
  | attr => .lift _ attr_injective
  | vector c =>
      let _ := c.sem.order
      ⟨List c.sem.carrier, inferInstance⟩
  | map a b =>
      let _ := a.sem.order
      let _ := b.sem.order
      ⟨SortedMap a.sem.carrier b.sem.carrier, inferInstance⟩

/-- The values of a type. -/
abbrev Ty.Val (t : Ty) : Type := t.sem.carrier

instance (t : Ty) : LinearOrder t.Val := t.sem.order

/-- A value with its type. -/
abbrev Item := (t : Ty) × t.Val

/-! ## The format -/

/-- The size in front of a string, a vector or a map. -/
def sizeWord (n : Nat) : Bytes := intBody (UInt32.ofNat n)

def encode : (t : Ty) → t.Val → Bytes
  | .bool, (x : Bool) => [if x then 1 else 0]
  | .char, (x : Int8) => [x.toUInt8]
  | .uchar, (x : UInt8) => [x]
  | .short, (x : Int16) => [byte16 x.toUInt16 8, byte16 x.toUInt16 0]
  | .ushort, (x : UInt16) => [byte16 x 8, byte16 x 0]
  | .int, (x : Int32) => intBody x.toUInt32
  | .uint, (x : UInt32) => intBody x
  | .ulonglong, (x : UInt64) => intBody (x >>> 32).toUInt32 ++ intBody x.toUInt32
  | .string, (s : Bytes) => sizeWord s.length ++ s
  | .attr, (a : Extents.Attr) =>
      intBody a.atime ++ (intBody a.mtime ++ (intBody a.ctime ++ intBody a.size))
  | .vector c, (v : List c.Val) => sizeWord v.length ++ v.flatMap (encode c)
  | .map a b, (d : SortedMap a.Val b.Val) =>
      sizeWord d.entries.length ++ d.entries.flatMap fun p => encode a p.1 ++ encode b p.2

/-- The encodings of a sequence of values. -/
def encodeItems (vs : List Item) : Bytes := vs.flatMap fun v => encode v.1 v.2

/-- No value takes no space. -/
theorem encode_length_pos : (t : Ty) → (v : t.Val) → 0 < (encode t v).length
  | .uchar, _ => Nat.one_pos
  | .bool, _ | .char, _ | .short, _ | .ushort, _ | .int, _ | .uint, _ | .ulonglong, _
  | .string, _ | .attr, _ | .vector _, _ | .map _ _, _ => by
      simp [encode, sizeWord, intBody]

/-- A list of things that each take space has no more elements than bytes. -/
theorem length_le_flatMap {α : Type} {f : α → Bytes} (hf : ∀ x, 0 < (f x).length) (l : List α) :
    l.length ≤ (l.flatMap f).length := by
  induction l with
  | nil => simp
  | cons x l ih =>
      have := hf x
      simp only [List.length_cons, List.flatMap_cons, List.length_append]
      omega

end Yfs.Wire
