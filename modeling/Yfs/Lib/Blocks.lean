import Mathlib.Data.List.Basic

/-!
# Blocks in a window

Blocks lie one after the other in a buffer. A window of the buffer may cut a block in two; `within` are
the blocks that are in the window as a whole. If the window starts where a block starts, these are the
first ones from there on that fit into it (`within_eq_fits`), and the window starts with them
(`fits_prefix_take`).
-/

namespace Yfs.Lib

variable {α : Type} {b : List α} {bs pre post : List (List α)} {start off n : Nat}

/-- The blocks that are wholly within the window of length `n` at position `off`, if the first one is at
position `start`. -/
def within (start off n : Nat) : List (List α) → List (List α)
  | [] => []
  | b :: bs =>
      if off ≤ start ∧ start + b.length ≤ off + n then b :: within (start + b.length) off n bs
      else within (start + b.length) off n bs

/-- As many of the first blocks as fit into length `n`. -/
def fits (n : Nat) : List (List α) → List (List α)
  | [] => []
  | b :: bs => if b.length ≤ n then b :: fits (n - b.length) bs else []

theorem fits_prefix (n : Nat) (bs : List (List α)) : fits n bs <+: bs := by
  induction bs generalizing n with
  | nil => exact List.prefix_rfl
  | cons b bs ih =>
      rw [fits]
      split
      · exact List.cons_prefix_cons.mpr ⟨rfl, ih _⟩
      · exact List.nil_prefix

/-- A window that starts with a block starts with all blocks that fit into it. -/
theorem fits_prefix_take (n : Nat) (bs : List (List α)) :
    (fits n bs).flatten <+: bs.flatten.take n := by
  induction bs generalizing n with
  | nil => exact List.nil_prefix
  | cons b bs ih =>
      rw [fits]
      split
      · rename_i hle
        rw [List.flatten_cons, List.flatten_cons, List.take_append, List.take_of_length_le hle]
        exact (List.prefix_append_right_inj b).mpr (ih _)
      · exact List.nil_prefix

theorem fits_ne_nil (h : b.length ≤ n) : fits n (b :: bs) ≠ [] := by
  rw [fits, if_pos h]
  exact List.cons_ne_nil _ _

/-- No block that starts before the window is in it. -/
theorem within_append (hpre : ∀ b ∈ pre, b ≠ []) (hoff : start + pre.flatten.length ≤ off) :
    within start off n (pre ++ post) = within (start + pre.flatten.length) off n post := by
  induction pre generalizing start with
  | nil => simp
  | cons b pre ih =>
      have hpos := List.length_pos_iff.mpr (hpre b (by simp))
      rw [List.flatten_cons, List.length_append] at hoff ⊢
      rw [List.cons_append, within, if_neg (by omega),
        ih (fun b' hb' => hpre b' (by simp [hb'])) (by omega), Nat.add_assoc]

/-- No block that starts after a block that is cut is in the window. -/
theorem within_eq_nil (hbs : ∀ b ∈ bs, b ≠ []) (hstart : off + n ≤ start) :
    within start off n bs = [] := by
  induction bs generalizing start with
  | nil => rfl
  | cons b bs ih =>
      have hpos := List.length_pos_iff.mpr (hbs b (by simp))
      rw [within, if_neg (by omega)]
      exact ih (fun b' hb' => hbs b' (by simp [hb'])) (by omega)

/-- From the start of the window on, the blocks in it are those that fit into it. -/
theorem within_self (hbs : ∀ b ∈ bs, b ≠ []) (hstart : off ≤ start) (hend : start ≤ off + n) :
    within start off n bs = fits (off + n - start) bs := by
  induction bs generalizing start with
  | nil => rfl
  | cons b bs ih =>
      have hrest : ∀ b' ∈ bs, b' ≠ [] := fun b' hb' => hbs b' (by simp [hb'])
      rw [within, fits]
      by_cases hle : start + b.length ≤ off + n
      · rw [if_pos ⟨hstart, hle⟩, if_pos (by omega), ih hrest (by omega) hle, Nat.sub_sub]
      · rw [if_neg fun h => hle h.2, if_neg (by omega), within_eq_nil hrest (by omega)]

theorem within_eq_fits (hbs : ∀ b ∈ pre ++ post, b ≠ []) :
    within 0 pre.flatten.length n (pre ++ post) = fits n post := by
  rw [within_append (fun b hb => hbs b (by simp [hb])) (by omega), Nat.zero_add,
    within_self (fun b hb => hbs b (by simp [hb])) (Nat.le_refl _) (Nat.le_add_right _ _),
    Nat.add_sub_cancel_left]

end Yfs.Lib
