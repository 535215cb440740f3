import Mathlib.Data.List.Sort

/-!
# Insertion before the first greater element

Mathlib's `List.orderedInsert r x l` puts `x` before the first element `b` of `l` with `r x b`.
Its sortedness lemmas are for a total `r`. With a strict `r` the insertion goes *after* the
elements equal to `x`; `pairwise_orderedInsert` says which order survives that.
-/

namespace Yfs.Lib

variable {α : Type} {r R : α → α → Prop} [DecidableRel r]

/-- Insertion keeps a transitive order `R` that agrees with the comparisons made on the way. -/
theorem pairwise_orderedInsert (htrans : ∀ a b c, R a b → R b c → R a c) {x : α} {l : List α}
    (hl : l.Pairwise R) (hx : ∀ b ∈ l, if r x b then R x b else R b x) :
    (l.orderedInsert r x).Pairwise R := by
  induction l with
  | nil => simp
  | cons b l ih =>
      obtain ⟨hb, hl⟩ := List.pairwise_cons.mp hl
      have hxb := hx b (by simp)
      by_cases h : r x b
      · rw [List.orderedInsert_cons, if_pos h]
        rw [if_pos h] at hxb
        refine List.pairwise_cons.mpr ⟨fun y hy => ?_, List.pairwise_cons.mpr ⟨hb, hl⟩⟩
        rcases List.mem_cons.mp hy with rfl | hy
        · exact hxb
        · exact htrans _ _ _ hxb (hb y hy)
      · rw [List.orderedInsert_cons, if_neg h]
        rw [if_neg h] at hxb
        refine List.pairwise_cons.mpr ⟨fun y hy => ?_, ih hl fun y hy => hx y (by simp [hy])⟩
        rcases List.mem_cons.mp ((List.perm_orderedInsert r x l).mem_iff.mp hy) with rfl | hy
        · exact hxb
        · exact hb y hy

end Yfs.Lib
