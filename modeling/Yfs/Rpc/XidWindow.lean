import Mathlib.Algebra.Group.Nat.Defs
import Mathlib.Data.List.DropRight
import Yfs.Lib.Insert

/-!
# The window of finished calls

`rpcc::update_xid_rep` keeps a list of finished xids in ascending order and forgets all of them but
the last of the run that starts at the front: the front stands for itself and everything before it.
`Exact w fin` says what such a list means for the set `fin` of finished xids, and
`Exact.updateXidRep` that reporting one more xid keeps the list exact. The same xid may be reported
several times; the list then holds it several times.

No xid gets near the end of the 32 bits (`Small`), so that `front + 1` does not wrap around.
-/

namespace Yfs.Rpc

open Yfs.Lib

/-- The loop after `compress:`. The window is `front ++ rest` and the iterator stands at the first
element of `rest`; what is popped is at the front of `front`. -/
def compress : List UInt32 → List UInt32 → List UInt32
  | front, [] => front
  | front, x :: rest => compress (front.dropWhile (fun f => f + 1 == x) ++ [x]) rest

/-- `rpcc::update_xid_rep`. The window is never empty. -/
def updateXidRep (window : List UInt32) (xid : UInt32) : List UInt32 :=
  if window.head?.any (xid ≤ ·) then window
  else
    let window := window.orderedInsert (· < ·) xid
    compress (window.take 1) (window.drop 1)

/-- An xid of a client that makes fewer than `2 ^ 31` calls. -/
def Small (x : UInt32) : Prop := x.toNat < 2 ^ 31

/-- The window `w` stands for exactly the finished xids `fin`. -/
structure Exact (w : List UInt32) (fin : UInt32 → Prop) : Prop where
  sorted : w.Pairwise (· ≤ ·)
  small : ∀ x ∈ w, Small x
  front : ∃ n ∈ w.head?, (∀ x, 1 ≤ x → x ≤ n → fin x) ∧ ¬ fin (n + 1) ∧ ∀ x, n < x → (x ∈ w ↔ fin x)

/-! ## `compress` -/

theorem Small.toNat_succ {x : UInt32} (h : Small x) : (x + 1).toNat = x.toNat + 1 := by
  simp only [Small] at h
  simp only [UInt32.toNat_add, UInt32.reduceToNat]
  omega

/-- Between `h` and `h + 1` there is nothing. -/
theorem Small.lt_iff {h x : UInt32} (hh : Small h) : h < x ↔ h + 1 ≤ x := by
  rw [UInt32.lt_iff_toNat_lt, UInt32.le_iff_toNat_le, hh.toNat_succ]
  omega

/-- What the loop does to a sorted window `h :: front ++ rest` where nothing in `front`, the part
before the iterator, follows `h` directly. -/
theorem compress_spec {h : UInt32} {front rest : List UInt32}
    (hs : (h :: front ++ rest).Pairwise (· ≤ ·)) (hsmall : ∀ x ∈ h :: front ++ rest, Small x)
    (hfront : h + 1 ∉ front) :
    ∃ n w, compress (h :: front) rest = n :: w ∧ (n :: w).Pairwise (· ≤ ·) ∧
      (∀ x ∈ n :: w, x ∈ h :: front ++ rest) ∧ h ≤ n ∧ n + 1 ∉ w ∧
      (∀ x, h < x → x ≤ n → x ∈ front ++ rest) ∧
      ∀ x, n < x → (x ∈ w ↔ x ∈ front ++ rest) := by
  induction rest generalizing h front with
  | nil =>
      exact ⟨h, front, rfl, by simpa using hs, by simp, UInt32.le_refl h, hfront, by grind, by simp⟩
  | cons x rest ih =>
      have hh : Small h := hsmall h (by simp)
      have hlt := @Small.lt_iff h
      simp only [compress, List.dropWhile_cons, beq_iff_eq]
      by_cases hx : h + 1 = x
      · -- everything before the iterator equals `h` and is popped
        obtain ⟨hge, hs⟩ := List.pairwise_cons.mp hs
        obtain ⟨-, hs, hle⟩ := List.pairwise_append.mp hs
        have hall : ∀ f ∈ front, f = h := by
          intro f hf
          have hle : f ≤ x := hle f hf x (by simp)
          have hge : h ≤ f := hge f (by simp [hf])
          have hne : f ≠ x := fun hfx => hfront (hx ▸ hfx ▸ hf)
          have := hlt (x := f) hh
          clear ih hsmall hs hfront
          grind
        have hdrop : front.dropWhile (fun f => f + 1 == x) = [] := by
          rw [List.dropWhile_eq_nil_iff]
          intro f hf
          simp [hall f hf, hx]
        rw [if_pos hx, hdrop]
        obtain ⟨n, w, hw, hsorted, hsub, hxn, hn, hrun, hbeyond⟩ := @ih x []
          hs (fun y hy => hsmall y (List.mem_append_right (h :: front) hy)) (by simp)
        have hhx : h < x := (hlt hh).mpr (hx ▸ UInt32.le_refl _)
        refine ⟨n, w, hw, hsorted, fun y hy => ?_, ?_, hn, fun y hy hyn => ?_, fun y hy => ?_⟩
        · exact List.mem_append_right (h :: front) (hsub y hy)
        · exact UInt32.le_trans (UInt32.le_of_lt hhx) hxn
        · rcases eq_or_ne x y with rfl | hne
          · simp
          · have hxy : x < y := by
              have := (hlt hh).mp hy
              clear ih
              grind
            have : y ∈ rest := by simpa using hrun y hxy hyn
            simp [this]
        · have hyx : y ≠ x := by
            clear ih
            grind
          have hyf : y ∉ front := fun hf => by
            rw [hall y hf] at hy
            clear ih
            grind
          simp [hbeyond y hy, hyx, hyf]
      · rw [if_neg hx]
        obtain ⟨n, w, hw⟩ := @ih h (front ++ [x]) (by simpa using hs)
          (by simpa using hsmall) (by simp [hfront, hx])
        exact ⟨n, w, by simpa using hw⟩

/-! ## Exactness -/

theorem exact_initial : Exact [0] fun _ => False where
  sorted := by simp
  small := by simp [Small]
  front := ⟨0, rfl, by grind, by simp, by grind⟩

/-- Reporting an xid keeps the window exact, in whatever order the xids are reported and however
often. -/
theorem Exact.updateXidRep {w : List UInt32} {fin : UInt32 → Prop} {xid : UInt32}
    (h : Exact w fin) (hxid : Small xid) (hpos : 1 ≤ xid) :
    Exact (updateXidRep w xid) (fun x => fin x ∨ x = xid) := by
  obtain ⟨hsorted, hsmall, n, hn, hrun, hnext, hbeyond⟩ := h
  obtain ⟨rest, rfl⟩ : ∃ rest, w = n :: rest := by
    cases w with
    | nil => cases hn
    | cons m rest =>
        cases hn
        exact ⟨rest, rfl⟩
  have hsn : Small n := hsmall n (by simp)
  simp only [Rpc.updateXidRep, List.head?_cons, Option.any_some, decide_eq_true_eq]
  by_cases hle : xid ≤ n
  · -- already covered by the front
    rw [if_pos hle]
    have hne : n + 1 ≠ xid := by
      have := (hsn.lt_iff (x := xid)).not
      grind
    refine ⟨hsorted, hsmall, n, rfl, fun x h₁ h₂ => .inl (hrun x h₁ h₂), by simp [hnext, hne],
      fun x hx => ?_⟩
    have : x ≠ xid := by grind
    simp [hbeyond x hx, this]
  · have hlt : ¬ xid < n := by grind
    rw [if_neg hle, List.orderedInsert_cons, if_neg hlt]
    have hmem : ∀ x, x ∈ rest.orderedInsert (· < ·) xid ↔ x = xid ∨ x ∈ rest := fun x => by
      simp [(List.perm_orderedInsert (· < ·) xid rest).mem_iff]
    have hins : (n :: rest.orderedInsert (· < ·) xid).Pairwise (· ≤ ·) := by
      have := pairwise_orderedInsert (r := (· < ·)) (R := (· ≤ ·)) (x := xid)
        (fun _ _ _ h h' => UInt32.le_trans h h') hsorted (by grind)
      rwa [List.orderedInsert_cons, if_neg hlt] at this
    have hsins : ∀ x ∈ n :: rest.orderedInsert (· < ·) xid, Small x := by
      intro x hx
      rw [List.mem_cons, hmem] at hx
      rcases hx with rfl | rfl | hx
      · exact hsn
      · exact hxid
      · exact hsmall x (List.mem_cons_of_mem n hx)
    obtain ⟨m, w, hw, hwsorted, hsub, hnm, hm, hmrun, hmbeyond⟩ := @compress_spec n [] _
      hins hsins (by simp)
    simp only [List.nil_append, hmem] at hmrun hmbeyond
    have hsw : ∀ x ∈ m :: w, Small x := fun x hx => hsins x (hsub x hx)
    have hsm := hsw m (by simp)
    simp only [List.take_succ_cons, List.take_zero, List.drop_succ_cons, List.drop_zero, hw]
    refine ⟨hwsorted, hsw, m, rfl, fun x h₁ h₂ => ?_, fun hfin => ?_, fun x hx => ?_⟩
    · by_cases hxn : x ≤ n
      · exact .inl (hrun x h₁ hxn)
      · have hnx : n < x := by grind
        rcases hmrun x hnx h₂ with rfl | hx
        · exact .inr rfl
        · exact .inl ((hbeyond x hnx).mp (by simp [hx]))
    · have hmm : m < m + 1 := (hsm.lt_iff).mpr (UInt32.le_refl _)
      have hnm : n < m + 1 := by grind
      refine hm ((hmbeyond _ hmm).mpr ?_)
      rcases hfin with hfin | hfin
      · have := (hbeyond _ hnm).mpr hfin
        grind
      · exact .inl hfin
    · have hnx : n < x := by grind
      have := hbeyond x hnx
      have := hmbeyond x hx
      grind

end Yfs.Rpc
