import Yfs.Fs.Directory
import Yfs.Lib.Word

/-!
# Reading, writing and resizing files

A file is the string in the extent of its inode number. `yfs_client` splices it with `substr` and
`append`, and converts offsets and lengths between `off_t`, `size_t`, `int` and `unsigned` on the way.
The functions here keep these conversions: an `off_t` is an `Int64`, a `size_t` a `UInt64`, and a
`Fault` says that a call ends in an exception or writes out of bounds. Memory is not limited: an
allocation fails only if its size is negative.

* `write` cuts its offset to 32 bits, and does what it should at every offset below 2³² and at no
  other (`write_posix_iff`).
* `read` does what it should exactly if it starts at or before the end of the file and wants fewer
  than 2³¹ bytes beyond it (`read_exact_iff`).
* `setattr` loses no length on the way exactly if the file is shorter than 4 GiB and grows by less
  than 2 GiB (`setattr_exact_iff`).
-/

namespace Yfs.Fs

open Yfs.Lib
open Yfs.Rpc (Bytes)

/-- Why a call does not return. -/
inductive Fault where
  /-- `substr` throws `std::out_of_range`. -/
  | outOfRange
  /-- `new` throws: the size of the array is negative. -/
  | badAlloc
  /-- Bytes beyond the end of an array are overwritten. -/
  | overrun
  deriving DecidableEq, Repr

/-- No object is larger than `PTRDIFF_MAX`. -/
def maxSize : Nat := 2 ^ 63 - 1

/-- `std::string::size()`. -/
def ssize (s : Bytes) : UInt64 := UInt64.ofNat s.length

/-- `std::string::substr`. -/
def substrAt (s : Bytes) (pos n : UInt64) : Except Fault Bytes :=
  if pos.toNat ≤ s.length then .ok (substr s pos.toNat n.toNat) else .error .outOfRange

/-- A string of `n` zeros: an array from `new char[n]`, of which `bzero` clears `len` bytes. -/
def zeroed (n : Int32) (len : UInt64) : Except Fault Bytes :=
  if n < 0 then .error .badAlloc
  else if n.toInt.toNat < len.toNat then .error .overrun
  else .ok (List.replicate n.toInt.toNat 0)

/-! ## The operations -/

/-- What `yfs_client::read` reads from a file with the contents `buf`. -/
def readBytes (buf : Bytes) (size : UInt64) (off : Int64) : Except Fault Bytes :=
  if off.toUInt64 + size > ssize buf then do
    let rest := off.toUInt64 + size - ssize buf
    let reside : Int32 := rest.toUInt32.toInt32
    let a ← zeroed reside rest
    let ret ← substrAt buf off.toUInt64 (ssize buf - off.toUInt64)
    return ret ++ a
  else substrAt buf off.toUInt64 size

/-- What `yfs_client::write` makes of a file with the contents `ori`; the buffer has `size` bytes. -/
def writeBytes (ori buf : Bytes) (off : Int64) : Except Fault Bytes :=
  let uoff : UInt64 := off.toUInt64.toUInt32.toUInt64
  let size := ssize buf
  if uoff ≤ ssize ori ∨ uoff = 0 then do
    let head ← substrAt ori 0 uoff
    let after := head ++ buf
    if uoff + size < ssize ori then do
      let tail ← substrAt ori (uoff + size) (ssize ori - uoff - size)
      return after ++ tail
    else return after
  else
    let gap := uoff - ssize ori
    return ori ++ List.replicate gap.toNat 0 ++ buf

/-- The length of a file in an `unsigned int`. -/
def oldSize (buf : Bytes) : UInt32 := UInt32.ofNat buf.length

/-- By how much `yfs_client::setattr` lets a file grow, in an `int`. -/
def appendSz (buf : Bytes) (stSize : Int64) : Int32 :=
  (stSize - (oldSize buf).toUInt64.toInt64).toInt32

/-- What `yfs_client::setattr` makes of a file with the contents `buf`. -/
def resize (buf : Bytes) (stSize : Int64) : Except Fault Bytes :=
  if (oldSize buf).toUInt64.toInt64 < stSize then do
    let a ← zeroed (appendSz buf stSize) (appendSz buf stSize).toInt64.toUInt64
    return buf ++ a
  else substrAt buf 0 stSize.toUInt64

section
variable {σ : Type} (E : ExtentOps σ) (ino : Inum)

/-- `yfs_client::read`. The data is written to the reference parameter. -/
def read (size : UInt64) (off : Int64) (s : σ) : Except Fault (σ × Status × Option Bytes) :=
  let (rs, buf, s) := E.get s ino
  if rs ≠ .ok then .ok (s, .ofExtent rs, none)
  else do
    let ret ← readBytes buf size off
    return (s, .ok, some ret)

/-- Get the contents, change them, and put them back. -/
def modify (f : Bytes → Except Fault Bytes) (s : σ) : Except Fault (σ × Status) :=
  let (rs, buf, s) := E.get s ino
  if rs ≠ .ok then .ok (s, .ofExtent rs)
  else do
    let after ← f buf
    let (rs, s) := E.put s ino after
    return (s, .ofExtent rs)

/-- `yfs_client::write`. -/
def write (buf : Bytes) (off : Int64) (s : σ) : Except Fault (σ × Status) :=
  if off < 0 then .ok (s, .noent) else modify E ino (writeBytes · buf off) s

/-- `yfs_client::setattr`. -/
def setattr (stSize : Int64) (s : σ) : Except Fault (σ × Status) :=
  modify E ino (resize · stSize) s

end

/-! ## The store -/

section
variable {σ : Type} {E : ExtentOps σ} {view : σ → Inum → Option Bytes} {ino : Inum} {s : σ}
  {content : Bytes}

/-- A call that changes the contents goes wrong if the change does, and leaves what it makes of
them. -/
theorem ExtentOps.Stores.modify (hE : E.Stores view) (hview : view s ino = some content)
    (f : Bytes → Except Fault Bytes) :
    (∃ e, f content = .error e ∧ Fs.modify E ino f s = .error e) ∨
      ∃ new s', f content = .ok new ∧ Fs.modify E ino f s = .ok (s', .ok) ∧
        view s' ino = some new := by
  obtain ⟨s₁, hget, -⟩ := hE.get s ino content hview
  unfold Fs.modify
  rw [hget]
  cases hf : f content with
  | error e => exact .inl ⟨e, rfl, by simp [hf]⟩
  | ok new =>
      obtain ⟨s₂, hput, hview₂⟩ := hE.put s₁ ino new
      exact .inr ⟨new, s₂, rfl, by simp [hf, hput, Status.ofExtent], by simp [hview₂]⟩

end

/-! ## Lengths and offsets as numbers -/

section
variable {s : Bytes} {pos n : UInt64}

theorem toNat_ssize (h : s.length ≤ maxSize) : (ssize s).toNat = s.length := by
  unfold maxSize at h
  unfold ssize
  rw [UInt64.toNat_ofNat']
  exact Nat.mod_eq_of_lt (by omega)

/-- The offset that `write` works with. -/
theorem toNat_uoff {off : Int64} (h : 0 ≤ off) :
    off.toUInt64.toUInt32.toUInt64.toNat = off.toInt.toNat % 2 ^ 32 := by
  have := toNat_toUInt64 h
  rw [UInt32.toNat_toUInt64, UInt64.toNat_toUInt32]
  congr 1
  omega

theorem substrAt_ok (h : pos.toNat ≤ s.length) :
    substrAt s pos n = .ok ((s.drop pos.toNat).take n.toNat) := if_pos h

theorem zeroed_ok {k : Int32} {len : UInt64} (h : (len.toNat : Int) = k.toInt) :
    zeroed k len = .ok (List.replicate len.toNat 0) := by
  have hneg : ¬ k < 0 := by
    rw [Int32.lt_iff_toInt_lt]
    have : (0 : Int32).toInt = 0 := rfl
    omega
  have hlen : k.toInt.toNat = len.toNat := by omega
  unfold zeroed
  rw [if_neg hneg, hlen, if_neg (Nat.lt_irrefl _)]

theorem zeroed_of_ok {k : Int32} {len : UInt64} {a : Bytes} (h : zeroed k len = .ok a) :
    (len.toNat : Int) ≤ k.toInt ∧ a.length = k.toInt.toNat := by
  unfold zeroed at h
  split at h
  · cases h
  · rename_i hneg
    have hpos : 0 ≤ k.toInt := by
      rw [Int32.lt_iff_toInt_lt] at hneg
      have : (0 : Int32).toInt = 0 := rfl
      omega
    split at h
    · cases h
    · cases h
      rw [List.length_replicate]
      omega

end

/-! ## Writing -/

/-- `new` is what a write of `buf` at `off` should make of `old`. -/
structure Written (old buf : Bytes) (off : Nat) (new : Bytes) : Prop where
  length : new.length = max old.length (off + buf.length)
  data : ∀ i < buf.length, new[off + i]? = buf[i]?
  gap : ∀ i, old.length ≤ i → i < off → new[i]? = some 0
  rest : ∀ i < old.length, i < off ∨ off + buf.length ≤ i → new[i]? = old[i]?

/-- `old` up to `off`, filled up with zeros; `buf`; and what is left of `old`. -/
def splice (old buf : Bytes) (off : Nat) : Bytes :=
  old.take off ++ List.replicate (off - old.length) 0 ++ buf ++ old.drop (off + buf.length)

theorem written_splice (old buf : Bytes) (off : Nat) : Written old buf off (splice old buf off) := by
  have hhead : (old.take off ++ List.replicate (off - old.length) 0).length = off := by
    rw [List.length_append, List.length_take, List.length_replicate]
    omega
  constructor
  case length =>
    unfold splice
    rw [List.length_append, List.length_append, hhead, List.length_drop]
    omega
  case data =>
    intro i hi
    unfold splice
    rw [List.getElem?_append_left (by rw [List.length_append, hhead]; omega),
      List.getElem?_append_right (by omega), hhead, Nat.add_sub_cancel_left]
  case gap =>
    intro i hold hoff
    unfold splice
    rw [List.append_assoc, List.append_assoc, List.getElem?_append_right (by simp; omega),
      List.getElem?_append_left (by simp; omega)]
    exact List.getElem?_replicate_of_lt (by simp; omega)
  case rest =>
    rintro i hi (hlt | hge)
    · unfold splice
      rw [List.append_assoc, List.append_assoc, List.getElem?_append_left (by simp; omega),
        List.getElem?_take_of_lt hlt]
    · unfold splice
      rw [List.getElem?_append_right (by rw [List.length_append, hhead]; omega),
        List.length_append, hhead, List.getElem?_drop]
      congr 1
      omega

section
variable {ori buf : Bytes} {off : Int64}

/-- `write` splices at the offset cut to 32 bits. -/
theorem writeBytes_eq (hori : ori.length ≤ maxSize) (hbuf : buf.length ≤ maxSize) (hoff : 0 ≤ off) :
    writeBytes ori buf off = .ok (splice ori buf (off.toInt.toNat % 2 ^ 32)) := by
  have huoff := toNat_uoff hoff
  have hlt : off.toInt.toNat % 2 ^ 32 < 2 ^ 32 := Nat.mod_lt _ (by decide)
  generalize off.toInt.toNat % 2 ^ 32 = k at *
  have hori' := toNat_ssize hori
  have hbuf' := toNat_ssize hbuf
  have hsum : (off.toUInt64.toUInt32.toUInt64 + ssize buf).toNat = k + buf.length := by
    unfold maxSize at hbuf
    rw [UInt64.toNat_add, huoff, hbuf', Nat.mod_eq_of_lt (by omega)]
  unfold writeBytes
  generalize off.toUInt64.toUInt32.toUInt64 = uoff at *
  unfold maxSize at hori hbuf
  simp only [UInt64.le_iff_toNat_le, UInt64.lt_iff_toNat_lt, ← UInt64.toNat_inj, huoff, hori',
    hsum, UInt64.toNat_zero]
  by_cases hle : k ≤ ori.length
  · -- inside of the file, or at its end: no gap
    have hgap : k - ori.length = 0 := by omega
    unfold splice
    rw [if_pos (.inl hle), substrAt_ok (Nat.zero_le _), hgap, huoff]
    split
    · rename_i htail
      have hpos : (uoff + ssize buf).toNat ≤ ori.length := by omega
      have hrest : (ssize ori - uoff - ssize buf).toNat = ori.length - (k + buf.length) := by
        simp only [UInt64.toNat_sub, huoff, hori', hbuf']
        omega
      rw [substrAt_ok hpos, hrest, hsum]
      have hall : (ori.drop (k + buf.length)).take (ori.length - (k + buf.length)) =
          ori.drop (k + buf.length) := List.take_of_length_le (by rw [List.length_drop])
      simp [bind, Except.bind, pure, Except.pure, hall]
    · have hnone : ori.drop (k + buf.length) = [] := List.drop_eq_nil_of_le (by omega)
      simp [bind, Except.bind, pure, Except.pure, hnone]
  · -- beyond the end: the whole file, and a gap
    have htake : ori.take k = ori := List.take_of_length_le (by omega)
    have hnone : ori.drop (k + buf.length) = [] := List.drop_eq_nil_of_le (by omega)
    have hgap : (uoff - ssize ori).toNat = k - ori.length := by
      rw [UInt64.toNat_sub, huoff, hori']
      omega
    unfold splice
    rw [if_neg (by omega), hgap, htake, hnone, List.append_nil]
    rfl

end

section
variable {σ : Type} {E : ExtentOps σ} {view : σ → Inum → Option Bytes} {ino : Inum}

/-- Every write at `off` that returns OK does what it should. -/
def WritesRight (E : ExtentOps σ) (view : σ → Inum → Option Bytes) (ino : Inum) (off : Int64) :
    Prop :=
  ∀ s s' old buf, view s ino = some old → old.length ≤ maxSize → buf.length ≤ maxSize →
    write E ino buf off s = .ok (s', .ok) →
      ∃ new, view s' ino = some new ∧ Written old buf off.toInt.toNat new

/-- Writes at an offset do what they should, for all contents and all buffers, if and only if the
offset fits into 32 bits. -/
theorem write_posix_iff [Nonempty σ] (hE : E.Stores view) {off : Int64} (hoff : 0 ≤ off) :
    WritesRight E view ino off ↔ off.toInt < 2 ^ 32 := by
  have hnneg : ¬ off < 0 := Int64.not_lt.mpr hoff
  constructor
  · intro hright
    by_contra hbig
    -- an empty write to an empty file
    obtain ⟨s₀⟩ := ‹Nonempty σ›
    obtain ⟨s, -, hs⟩ := hE.put s₀ ino []
    have hview : view s ino = some [] := by rw [hs, Function.update_self]
    have heq : writeBytes [] [] off = .ok (splice [] [] (off.toInt.toNat % 2 ^ 32)) :=
      writeBytes_eq (Nat.zero_le _) (Nat.zero_le _) hoff
    rcases hE.modify hview (writeBytes · [] off) with ⟨e, he, -⟩ | ⟨new, s', hnew, hwrite, hview'⟩
    · rw [heq] at he
      cases he
    · have hret : write E ino [] off s = .ok (s', .ok) := by rw [write, if_neg hnneg, hwrite]
      obtain ⟨new', hnew', hwritten⟩ := hright s s' [] [] hview (Nat.zero_le _) (Nat.zero_le _) hret
      obtain rfl : new' = splice [] [] (off.toInt.toNat % 2 ^ 32) := by
        rw [heq] at hnew
        rw [hview', Option.some.injEq] at hnew'
        rw [← hnew', ← Except.ok.inj hnew]
      have hlen := (written_splice [] [] (off.toInt.toNat % 2 ^ 32)).length
      rw [hwritten.length] at hlen
      simp only [List.length_nil] at hlen
      omega
  · intro hsmall s s' old buf hview hold hbuf hret
    rw [write, if_neg hnneg] at hret
    rcases hE.modify hview (writeBytes · buf off) with ⟨e, -, he⟩ | ⟨new, s₁, hnew, hwrite, hview'⟩
    · rw [he] at hret
      cases hret
    · rw [hwrite] at hret
      cases hret
      rw [writeBytes_eq hold hbuf hoff, Nat.mod_eq_of_lt (by omega)] at hnew
      cases hnew
      exact ⟨_, hview', written_splice old buf _⟩

end

/-- Offset 100. -/
theorem write_posix_low : WritesRight mapOps id 5 100 :=
  (write_posix_iff mapOps_works.toStores (by decide)).mpr (by decide)

/-- One byte written at 2³² to an empty file ends up at 0. -/
theorem write_high_offset :
    (write mapOps 5 [7] 0x100000000 fun _ => some []).map (fun r => (r.1 5, r.2)) =
      .ok (some [7], .ok) ∧ ¬ Written [] [7] (0x100000000 : Int64).toInt.toNat [7] := by
  refine ⟨by decide, fun h => ?_⟩
  exact absurd h.length (by decide)

/-! ## Reading -/

/-- `size` bytes of `content` from `off` on, with zeros beyond the end. -/
structure ReadOut (content : Bytes) (off size : Nat) (ret : Bytes) : Prop where
  length : ret.length = size
  data : ∀ i < size, ret[i]? = some (content.getD (off + i) 0)

theorem readOut_take {content : Bytes} {off size : Nat} (hoff : off ≤ content.length) :
    ReadOut content off size
      ((content.drop off).take size ++ List.replicate (off + size - content.length) 0) := by
  constructor
  case length =>
    rw [List.length_append, List.length_take, List.length_drop, List.length_replicate]
    omega
  case data =>
    intro i hi
    by_cases hin : off + i < content.length
    · have hlt : i < ((content.drop off).take size).length := by
        rw [List.length_take, List.length_drop]
        omega
      rw [List.getElem?_append_left hlt, List.getElem?_take_of_lt hi, List.getElem?_drop,
        List.getD_eq_getElem?_getD, List.getElem?_eq_getElem hin]
      rfl
    · have hge : ((content.drop off).take size).length ≤ i := by
        rw [List.length_take, List.length_drop]
        omega
      have hbeyond : content[off + i]? = none := List.getElem?_eq_none (Nat.not_lt.mp hin)
      rw [List.getElem?_append_right hge, List.getD_eq_getElem?_getD, hbeyond,
        List.getElem?_replicate_of_lt]
      · rfl
      · rw [List.length_take, List.length_drop]
        omega

section
variable {buf ret : Bytes} {size : UInt64} {off : Int64}

theorem readBytes_ok (hbuf : buf.length ≤ maxSize) (hoff : 0 ≤ off)
    (hin : off.toInt ≤ buf.length) (hsmall : off.toInt + size.toNat < buf.length + 2 ^ 31) :
    readBytes buf size off = .ok ((buf.drop off.toInt.toNat).take size.toNat ++
      List.replicate (off.toInt.toNat + size.toNat - buf.length) 0) := by
  have ho := toNat_toUInt64 hoff
  have hlen := toNat_ssize hbuf
  unfold readBytes
  generalize off.toUInt64 = o at *
  have hpos : off.toInt.toNat = o.toNat := by omega
  rw [hpos]
  unfold maxSize at hbuf
  have hsum : (o + size).toNat = o.toNat + size.toNat := by
    rw [UInt64.toNat_add, Nat.mod_eq_of_lt (by omega)]
  have hstart : o.toNat ≤ buf.length := by omega
  have hbeyond : o + size > ssize buf ↔ buf.length < o.toNat + size.toNat := by
    rw [gt_iff_lt, UInt64.lt_iff_toNat_lt, hlen, hsum]
  split
  · -- some bytes beyond the end
    rename_i hgt
    have hgt := hbeyond.mp hgt
    have hrest : (o + size - ssize buf).toNat = o.toNat + size.toNat - buf.length := by
      rw [UInt64.toNat_sub, hsum, hlen]
      omega
    have hreside : ((o + size - ssize buf).toNat : Int) =
        (o + size - ssize buf).toUInt32.toInt32.toInt := by
      rw [toInt_toInt32, UInt64.toNat_toUInt32, Nat.mod_eq_of_lt (by omega), if_pos (by omega)]
    have hall : (buf.drop o.toNat).take (ssize buf - o).toNat = (buf.drop o.toNat).take size.toNat := by
      have : (ssize buf - o).toNat = buf.length - o.toNat := by
        rw [UInt64.toNat_sub, hlen]
        omega
      rw [this, List.take_of_length_le (by rw [List.length_drop]),
        List.take_of_length_le (by rw [List.length_drop]; omega)]
    simp only [zeroed_ok hreside, substrAt_ok hstart, hrest, hall]
    rfl
  · rename_i hle
    have hle := mt hbeyond.mpr hle
    have hnone : o.toNat + size.toNat - buf.length = 0 := by omega
    rw [substrAt_ok hstart, hnone, List.replicate_zero, List.append_nil]

/-- A read of the right length starts in the file, and does not go far beyond its end. -/
theorem readBytes_of_length (hbuf : buf.length ≤ maxSize) (hoff : 0 ≤ off)
    (h : readBytes buf size off = .ok ret) (hret : ret.length = size.toNat) :
    off.toInt ≤ buf.length ∧ off.toInt + size.toNat < buf.length + 2 ^ 31 := by
  have ho := toNat_toUInt64 hoff
  have hlen := toNat_ssize hbuf
  have hsize := size.toNat_lt
  unfold readBytes at h
  generalize off.toUInt64 = o at *
  have hstart : ∀ {n : UInt64} {r : Bytes}, substrAt buf o n = .ok r →
      o.toNat ≤ buf.length ∧ r.length ≤ buf.length - o.toNat := by
    intro n r hr
    unfold substrAt at hr
    split at hr
    · cases hr
      refine ⟨‹_›, ?_⟩
      rw [substr, List.length_take, List.length_drop]
      omega
    · cases hr
  unfold maxSize at hbuf
  split at h
  · rename_i hbeyond
    simp only [bind, Except.bind] at h
    split at h
    · cases h
    · rename_i a ha
      split at h
      · cases h
      · rename_i r hr
        cases h
        obtain ⟨hle, hrlen⟩ := hstart hr
        -- as many zeros as an `int` can count
        obtain ⟨hfit, halen⟩ := zeroed_of_ok ha
        have hint := toInt_toInt32 (o + size - ssize buf).toUInt32
        rw [UInt64.toNat_toUInt32] at hint
        rw [gt_iff_lt, UInt64.lt_iff_toNat_lt, hlen] at hbeyond
        rw [UInt64.toNat_sub, hlen] at hfit hint
        rw [UInt64.toNat_add] at hbeyond hfit hint
        rw [List.length_append] at hret
        split at hint <;> omega
  · rename_i hwithin
    obtain ⟨hle, hrlen⟩ := hstart h
    omega

end

section
variable {σ : Type} {E : ExtentOps σ} {view : σ → Inum → Option Bytes} {ino : Inum} {s : σ}
  {content : Bytes}

/-- The read returns OK, with the bytes it should. -/
def ReadsRight (E : ExtentOps σ) (ino : Inum) (s : σ) (content : Bytes) (size : UInt64)
    (off : Int64) : Prop :=
  ∃ s' ret, read E ino size off s = .ok (s', .ok, some ret) ∧
    ReadOut content off.toInt.toNat size.toNat ret

theorem ExtentOps.Stores.read (hE : E.Stores view) (hview : view s ino = some content)
    (size : UInt64) (off : Int64) : ∃ s', Fs.read E ino size off s =
      (readBytes content size off).map fun ret => (s', .ok, some ret) := by
  obtain ⟨s', hget, -⟩ := hE.get s ino content hview
  refine ⟨s', ?_⟩
  unfold Fs.read
  rw [hget]
  cases hr : readBytes content size off <;> simp [Except.map, hr]

/-- A read is right if and only if it starts at or before the end of the file and wants fewer than
2³¹ bytes beyond it. -/
theorem read_exact_iff (hE : E.Stores view) (hview : view s ino = some content)
    (hlen : content.length ≤ maxSize) {off : Int64} (hoff : 0 ≤ off) (size : UInt64) :
    ReadsRight E ino s content size off ↔
      off.toInt ≤ content.length ∧ off.toInt + size.toNat < content.length + 2 ^ 31 := by
  obtain ⟨s', hread⟩ := hE.read hview size off
  constructor
  · rintro ⟨s₁, ret, hret, hout⟩
    rw [hread] at hret
    cases hbytes : readBytes content size off with
    | error e =>
        rw [hbytes] at hret
        cases hret
    | ok r =>
        rw [hbytes] at hret
        cases hret
        exact readBytes_of_length hlen hoff hbytes hout.length
  · rintro ⟨hin, hsmall⟩
    refine ⟨s', _, ?_, readOut_take (by omega)⟩
    rw [hread, readBytes_ok hlen hoff hin hsmall]
    rfl

end

/-- Four bytes from offset 1 of a file of three. -/
theorem read_exact_tail : ReadsRight mapOps 5 (fun _ => some [1, 2, 3]) [1, 2, 3] 4 1 :=
  (read_exact_iff mapOps_works.toStores rfl (by decide) (by decide) 4).mpr (by decide)

/-- A read that starts beyond the end of the file ends in an exception. -/
theorem read_beyond_end :
    (read mapOps 5 1 4 fun _ => some [1, 2, 3]).map (fun r => r.2) = .error .outOfRange ∧
      ¬ ReadsRight mapOps 5 (fun _ => some [1, 2, 3]) [1, 2, 3] 1 4 := by
  have hthrows : (read mapOps 5 1 4 fun _ => some [1, 2, 3]) = .error .outOfRange := rfl
  refine ⟨by rw [hthrows]; rfl, ?_⟩
  rintro ⟨s', ret, hret, -⟩
  rw [hthrows] at hret
  cases hret

/-! ## Resizing -/

/-- `old` cut off at `n`, or filled up with zeros to `n`. -/
structure Resized (old : Bytes) (n : Nat) (new : Bytes) : Prop where
  length : new.length = n
  contents : new = old.take n ++ List.replicate (n - old.length) 0

/-- A call that returns OK leaves the file resized, and on the way no conversion changes a length. -/
structure ResizesRight {σ : Type} (E : ExtentOps σ) (view : σ → Inum → Option Bytes) (ino : Inum)
    (s : σ) (content : Bytes) (stSize : Int64) : Prop where
  stored : ∀ s', setattr E ino stSize s = .ok (s', .ok) →
    ∃ new, view s' ino = some new ∧ Resized content stSize.toInt.toNat new
  oldSize : (oldSize content).toNat = content.length
  appendSz : content.length < stSize.toInt →
    (appendSz content stSize).toInt = stSize.toInt - content.length

theorem toNat_oldSize (buf : Bytes) : (oldSize buf).toNat = buf.length % 2 ^ 32 := by
  rw [oldSize, UInt32.toNat_ofNat']

theorem toInt_appendSz (buf : Bytes) (stSize : Int64) :
    (appendSz buf stSize).toInt =
      ((stSize.toInt - (buf.length % 2 ^ 32 : Nat)).bmod (2 ^ 64)).bmod (2 ^ 32) := by
  rw [appendSz, Int64.toInt_toInt32, Int64.toInt_sub, toInt_toUInt64_toInt64, toNat_oldSize]

section
variable {content : Bytes} {stSize : Int64}

/-- The growth fits into an `int`. -/
theorem appendSz_eq (hlen : content.length < 2 ^ 32) (hpos : content.length < stSize.toInt)
    (hsmall : stSize.toInt < content.length + 2 ^ 31) :
    (appendSz content stSize).toInt = stSize.toInt - content.length := by
  have h64 : (stSize.toInt - content.length).bmod (2 ^ 64) = stSize.toInt - content.length :=
    Int.bmod_eq_of_le (by omega) (by omega)
  rw [toInt_appendSz, Nat.mod_eq_of_lt hlen, h64, Int.bmod_eq_of_le (by omega) (by omega)]

theorem resize_ok (hsize : 0 ≤ stSize) (hlen : content.length < 2 ^ 32)
    (hsmall : stSize.toInt < content.length + 2 ^ 31) :
    resize content stSize = .ok (content.take stSize.toInt.toNat ++
      List.replicate (stSize.toInt.toNat - content.length) 0) := by
  have hs := toNat_toUInt64 hsize
  have hgrows : (oldSize content).toUInt64.toInt64 < stSize ↔ content.length < stSize.toInt := by
    rw [Int64.lt_iff_toInt_lt, toInt_toUInt64_toInt64, toNat_oldSize, Nat.mod_eq_of_lt hlen]
  unfold resize
  split
  · rename_i hlt
    have hlt := hgrows.mp hlt
    have hsz := appendSz_eq hlen hlt hsmall
    have hpos : 0 ≤ (appendSz content stSize).toInt64 := by
      rw [Int64.le_iff_toInt_le, Int32.toInt_toInt64, hsz]
      have : (0 : Int64).toInt = 0 := rfl
      omega
    have hn := toNat_toUInt64 hpos
    rw [Int32.toInt_toInt64] at hn
    have hcount : (appendSz content stSize).toInt64.toUInt64.toNat =
        stSize.toInt.toNat - content.length := by omega
    have hall : content.take stSize.toInt.toNat = content :=
      List.take_of_length_le (by omega)
    rw [zeroed_ok hn, hcount, hall]
    rfl
  · rename_i hle
    have hle := mt hgrows.mpr hle
    have hnone : stSize.toInt.toNat - content.length = 0 := by omega
    have htake : stSize.toUInt64.toNat = stSize.toInt.toNat := by omega
    rw [substrAt_ok (Nat.zero_le _), hnone, htake]
    simp

end

/-- Resizing is right if and only if the file is shorter than 4 GiB and grows by less than 2 GiB. -/
theorem setattr_exact_iff {σ : Type} {E : ExtentOps σ} {view : σ → Inum → Option Bytes} {ino : Inum}
    {s : σ} {content : Bytes} (hE : E.Stores view) (hview : view s ino = some content)
    {stSize : Int64} (hsize : 0 ≤ stSize) :
    ResizesRight E view ino s content stSize ↔
      content.length < 2 ^ 32 ∧ stSize.toInt < content.length + 2 ^ 31 := by
  constructor
  · intro h
    have hlen : content.length < 2 ^ 32 := by
      rw [← h.oldSize]
      exact UInt32.toNat_lt _
    refine ⟨hlen, ?_⟩
    by_contra hbig
    have hgrowth := h.appendSz (by omega)
    have hint := (appendSz content stSize).toInt_lt
    omega
  · rintro ⟨hlen, hsmall⟩
    constructor
    case stored =>
      intro s' hret
      rcases hE.modify hview (resize · stSize) with ⟨e, -, he⟩ | ⟨new, s₁, hnew, hset, hview'⟩
      · rw [setattr, he] at hret
        cases hret
      · rw [setattr, hset] at hret
        cases hret
        rw [resize_ok hsize hlen hsmall] at hnew
        cases hnew
        refine ⟨_, hview', ?_, rfl⟩
        rw [List.length_append, List.length_take, List.length_replicate]
        omega
    case oldSize => rw [toNat_oldSize, Nat.mod_eq_of_lt hlen]
    case appendSz =>
      intro hpos
      exact appendSz_eq hlen hpos hsmall

/-- Three bytes cut off to two. -/
theorem setattr_exact_truncate :
    ResizesRight mapOps id 5 (fun _ => some [1, 2, 3]) [1, 2, 3] 2 :=
  (setattr_exact_iff mapOps_works.toStores rfl (by decide)).mpr (by decide)

/-- An empty file that should become 4 GiB long stays empty, and the call returns OK. -/
theorem setattr_wraps :
    (setattr mapOps 5 0x100000000 fun _ => some []).map (fun r => (r.1 5, r.2)) =
      .ok (some [], .ok) ∧ ¬ Resized [] (0x100000000 : Int64).toInt.toNat [] := by
  refine ⟨by decide, fun h => ?_⟩
  exact absurd h.length (by decide)

end Yfs.Fs
