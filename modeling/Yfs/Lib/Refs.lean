import Mathlib.Algebra.BigOperators.Group.Finset.Basic
import Mathlib.Data.Fintype.Basic

/-!
# Counting references

A thing that is counted by reference is held by the entries of tables and by the elements of lists.
`entriesTo f c` is the number of entries of the table `f` that point to `c`. The lemmas say how the
numbers change when one entry, or one element, changes.
-/

namespace Yfs.Lib

variable {ι α β : Type}

/-- A sum in which one summand changes. -/
theorem sum_update {M : Type} [AddCommMonoid M] [Fintype ι] [DecidableEq ι] (g : β → M)
    (f : ι → β) (i : ι)
    (x : β) : (∑ j, g (Function.update f i x j)) + g (f i) = (∑ j, g (f j)) + g x := by
  have hrest : ∑ j ∈ Finset.univ.erase i, g (Function.update f i x j) =
      ∑ j ∈ Finset.univ.erase i, g (f j) := by
    refine Finset.sum_congr rfl fun j hj => ?_
    rw [Function.update_of_ne (Finset.ne_of_mem_erase hj)]
  rw [← Finset.add_sum_erase _ _ (Finset.mem_univ i), ← Finset.add_sum_erase _ _ (Finset.mem_univ i),
    hrest, Function.update_self]
  ac_rfl

section
variable [Fintype ι] [DecidableEq α] {f : ι → Option α} {i : ι} {x : Option α} {c : α}

/-- How many entries of a table point to `c`. It is never to be computed: the table may be as large as
its index type. -/
@[irreducible] def entriesTo (f : ι → Option α) (c : α) : Nat := ∑ i, if f i = some c then 1 else 0

/-- One entry changes. -/
theorem entriesTo_update [DecidableEq ι] :
    entriesTo (Function.update f i x) c + (if f i = some c then 1 else 0) =
      entriesTo f c + if x = some c then 1 else 0 := by
  unfold entriesTo
  exact sum_update (fun y => if y = some c then 1 else 0) f i x

theorem entriesTo_pos [DecidableEq ι] (h : f i = some c) : 0 < entriesTo f c := by
  have hupdate := entriesTo_update (f := f) (i := i) (x := none) (c := c)
  rw [if_pos h, if_neg nofun] at hupdate
  omega

theorem entriesTo_none (c : α) : entriesTo (fun _ : ι => none) c = 0 := by
  simp [entriesTo]

end

/-- One element of a list changes. -/
theorem countP_set_add {p : β → Bool} {l : List β} {n : Nat} {a b : β} (h : l[n]? = some a) :
    (l.set n b).countP p + (if p a = true then 1 else 0) =
      l.countP p + if p b = true then 1 else 0 := by
  obtain ⟨hlt, rfl⟩ := List.getElem?_eq_some_iff.mp h
  rw [List.countP_set hlt]
  have hpos : p l[n] = true → 0 < l.countP p := fun hp =>
    List.countP_pos_iff.mpr ⟨_, List.getElem_mem hlt, hp⟩
  split
  · rename_i hp
    have := hpos hp
    omega
  · omega

end Yfs.Lib
