import Mathlib.Data.List.Lex
import Mathlib.Data.Prod.Lex

/-!
# Maps as sorted lists

A map that is kept in the order of its keys, as the list of its entries. Two such maps with the same
entries are equal, and inserting the entries of a map into an empty one, in order, gives it back
(`ofList_entries`).
-/

namespace Yfs.Lib

variable {α β : Type}

/-- The keys are in strictly increasing order. -/
def Sorted [LT α] (l : List (α × β)) : Prop := l.Pairwise fun p q => p.1 < q.1

/-- `l` with `k` mapped to `v`, in place of what it was mapped to. -/
def insertSorted [LT α] [DecidableLT α] [DecidableEq α] (k : α) (v : β) :
    List (α × β) → List (α × β)
  | [] => [(k, v)]
  | p :: l =>
      if k < p.1 then (k, v) :: p :: l
      else if k = p.1 then (k, v) :: l
      else p :: insertSorted k v l

variable [LinearOrder α] {k : α} {v : β} {l : List (α × β)}

theorem mem_insertSorted {q : α × β} (h : q ∈ insertSorted k v l) : q = (k, v) ∨ q ∈ l := by
  induction l with
  | nil => simpa [insertSorted] using h
  | cons p l ih =>
      rw [insertSorted] at h
      split_ifs at h <;> simp only [List.mem_cons] at h ⊢ <;> tauto

/-- With a new key nothing is replaced. -/
theorem mem_insertSorted_iff (h : ∀ p ∈ l, p.1 ≠ k) {q : α × β} :
    q ∈ insertSorted k v l ↔ q = (k, v) ∨ q ∈ l := by
  refine ⟨mem_insertSorted, ?_⟩
  induction l with
  | nil => simp [insertSorted]
  | cons p l ih =>
      have ih := ih fun q hq => h q (List.mem_cons_of_mem p hq)
      have hne : ¬ k = p.1 := fun heq => h p (by simp) heq.symm
      rw [insertSorted, if_neg hne]
      split
      · simp
      · intro hq
        simp only [List.mem_cons] at hq ⊢
        tauto

theorem Sorted.insertSorted (h : Sorted l) : Sorted (insertSorted k v l) := by
  induction l with
  | nil => exact List.pairwise_singleton _ _
  | cons p l ih =>
      obtain ⟨hp, hl⟩ := List.pairwise_cons.mp h
      rw [Lib.insertSorted]
      split_ifs with hlt heq
      · refine List.pairwise_cons.mpr ⟨fun q hq => ?_, h⟩
        rcases List.mem_cons.mp hq with rfl | hq
        · exact hlt
        · exact hlt.trans (hp q hq)
      · exact List.pairwise_cons.mpr ⟨fun q hq => heq ▸ hp q hq, hl⟩
      · refine List.pairwise_cons.mpr ⟨fun q hq => ?_, ih hl⟩
        rcases mem_insertSorted hq with rfl | hq
        · exact lt_of_le_of_ne (not_lt.mp hlt) (Ne.symm heq)
        · exact hp q hq

/-- A key above all others goes to the end. -/
theorem insertSorted_last (h : ∀ p ∈ l, p.1 < k) : insertSorted k v l = l ++ [(k, v)] := by
  induction l with
  | nil => rfl
  | cons p l ih =>
      have hp := h p (by simp)
      rw [insertSorted, if_neg hp.not_gt, if_neg hp.ne', ih fun q hq => h q (by simp [hq])]
      rfl

/-- A map in the order of its keys. -/
structure SortedMap (α β : Type) [LinearOrder α] where
  entries : List (α × β)
  sorted : Sorted entries

namespace SortedMap

theorem entries_injective : Function.Injective (entries : SortedMap α β → List (α × β)) := by
  rintro ⟨l, _⟩ ⟨l', _⟩ rfl
  rfl

def empty : SortedMap α β := ⟨[], List.Pairwise.nil⟩

/-- The map `m` after `m[k] = v`. -/
def insert (m : SortedMap α β) (k : α) (v : β) : SortedMap α β :=
  ⟨insertSorted k v m.entries, m.sorted.insertSorted⟩

/-- The entries of a list put into an empty map, one after the other. -/
def ofList (l : List (α × β)) : SortedMap α β :=
  l.foldl (fun m p => m.insert p.1 p.2) empty

theorem foldl_insert (m : SortedMap α β) (h : Sorted (m.entries ++ l)) :
    (l.foldl (fun m p => m.insert p.1 p.2) m).entries = m.entries ++ l := by
  induction l generalizing m with
  | nil => simp
  | cons p l ih =>
      -- the keys come in ascending order, so each one goes to the end
      have hm : (m.insert p.1 p.2).entries = m.entries ++ [p] :=
        insertSorted_last fun q hq => (List.pairwise_append.mp h).2.2 q hq p (by simp)
      rw [List.foldl_cons, ih, hm]
      · simp
      · rw [hm]
        simpa using h

theorem ofList_entries (m : SortedMap α β) : ofList m.entries = m :=
  entries_injective (foldl_insert empty m.sorted)

/-- Maps are compared entry by entry, and entries by key and then by value. -/
instance [LinearOrder β] : LinearOrder (SortedMap α β) :=
  LinearOrder.lift' (fun m => m.entries.map toLex) fun _ _ h =>
    entries_injective (List.map_injective_iff.mpr toLex.injective h)

end SortedMap

end Yfs.Lib
