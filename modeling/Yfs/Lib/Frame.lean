import Mathlib.Data.List.Basic

/-!
# Self-delimiting frames

A frame says in its first elements how long it is. So a stream of frames can be cut in one way only:
if a string of frames is a prefix of another one, which may be followed by an unfinished frame, then
the frames themselves are a prefix (`prefix_of_flatten`).
-/

namespace Yfs.Lib

/-- How to read the length of a frame off its first `head` elements. -/
structure Framing (α : Type) where
  head : Nat
  size : List α → Nat
  pos : 0 < head

namespace Framing

variable {α : Type} {F : Framing α} {p q l r : List α} {ps qs : List (List α)}

/-- The whole frame. -/
def IsFrame (F : Framing α) (p : List α) : Prop := F.head ≤ p.length ∧ F.size (p.take F.head) = p.length

/-- The beginning of a frame, perhaps nothing, but not all of it. -/
def Unfinished (F : Framing α) (r : List α) : Prop := r = [] ∨ ∃ p, F.IsFrame p ∧ r <+: p ∧ r ≠ p

/-- Two frames at the beginning of the same stream are equal. -/
theorem IsFrame.eq_of_prefix (hp : F.IsFrame p) (hq : F.IsFrame q) (hpl : p <+: l) (hql : q <+: l) :
    p = q := by
  have hhead : p.take F.head = q.take F.head := by
    obtain ⟨p', rfl⟩ := hpl
    obtain ⟨q', hq'⟩ := hql
    have htake : (p ++ p').take F.head = p.take F.head := List.take_append_of_le_length hp.1
    rw [← htake, ← hq', List.take_append_of_le_length hq.1]
  have hlen : p.length = q.length := by rw [← hp.2, ← hq.2, hhead]
  have hpq := List.prefix_of_prefix_length_le hpl hql (Nat.le_of_eq hlen)
  exact hpq.eq_of_length hlen

/-- There is no whole frame at the beginning of an unfinished one. -/
theorem Unfinished.not_prefix (hr : F.Unfinished r) (hp : F.IsFrame p) : ¬ p <+: r := by
  intro hpr
  rcases hr with rfl | ⟨q, hq, hrq, hne⟩
  · have hpos := Nat.lt_of_lt_of_le F.pos hp.1
    rw [List.prefix_nil.mp hpr] at hpos
    exact absurd hpos (Nat.lt_irrefl 0)
  · -- `p` would be the frame that `r` is the beginning of
    have hpq := hp.eq_of_prefix hq (hpr.trans hrq) List.prefix_rfl
    subst hpq
    exact hne (hrq.eq_of_length (Nat.le_antisymm hrq.length_le hpr.length_le))

/-- A stream of frames can be cut in one way only. -/
theorem prefix_of_flatten (hps : ∀ p ∈ ps, F.IsFrame p) (hqs : ∀ q ∈ qs, F.IsFrame q)
    (hr : F.Unfinished r) (h : ps.flatten <+: qs.flatten ++ r) : ps <+: qs := by
  induction ps generalizing qs with
  | nil => exact List.nil_prefix
  | cons p ps ih =>
      have hp := hps p (by simp)
      have hpl : p <+: qs.flatten ++ r := (List.prefix_append _ _).trans h
      cases qs with
      | nil => exact absurd hpl (by simpa using hr.not_prefix hp)
      | cons q qs =>
          rw [List.flatten_cons, List.append_assoc] at hpl
          obtain rfl := hp.eq_of_prefix (hqs q (by simp)) hpl (List.prefix_append _ _)
          rw [List.flatten_cons, List.flatten_cons, List.append_assoc,
            List.prefix_append_right_inj] at h
          rw [List.cons_prefix_cons]
          exact ⟨rfl, ih (fun p' h' => hps p' (by simp [h'])) (fun q' h' => hqs q' (by simp [h'])) h⟩

end Framing

end Yfs.Lib
