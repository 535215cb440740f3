import Mathlib.Logic.Basic

/-!
# One-to-one links

In a protocol with blocking calls a message in flight is part of the control state of the
activity that sent it, and the object it is about records, in the proof, which activity that is.
`Linked f k` says that the two views agree: activity `a` is at work on object `x` in role `o`
(`f a = some (x, o)`) exactly when `x` names `a` in role `o` (`k x = some (a, o)`). No two
activities can then be at work on one object in any role.

A step that moves one activity and changes one object keeps the link if it adds, removes or
renames the pair between these two (`Linked.frame`) or leaves both sides alone (`Linked.congr`).
-/

namespace Yfs.Lib

variable {A X O : Type}

/-- The activities `f` sees at work on objects are the ones the objects name in `k`. -/
def Linked (f : A → Option (X × O)) (k : X → Option (A × O)) : Prop :=
  ∀ a x o, f a = some (x, o) ↔ k x = some (a, o)

namespace Linked

variable {f f' : A → Option (X × O)} {k k' : X → Option (A × O)}

theorem congr (h : Linked f k) (hf : ∀ a, f' a = f a) (hk : ∀ x, k' x = k x) :
    Linked f' k' := by
  intro a x o
  rw [hf, hk]
  exact h a x o

/-- The objects say all there is to say about the activities. -/
theorem eq_of_linked (h : Linked f k) (h' : Linked f' k) (a : A) : f a = f' a := by
  apply Option.ext
  rintro ⟨x, o⟩
  exact (h a x o).trans (h' a x o).symm

/-- Activity `a₀` and object `x₀`, free or linked to each other before, are free or linked to
each other after; nothing else changes. -/
theorem frame (h : Linked f k) (a₀ : A) (x₀ : X)
    (hf : ∀ a, a ≠ a₀ → f' a = f a) (hk : ∀ x, x ≠ x₀ → k' x = k x)
    (hold : (f a₀ = none ∧ k x₀ = none) ∨ ∃ o, f a₀ = some (x₀, o))
    (hnew : (f' a₀ = none ∧ k' x₀ = none) ∨ ∃ o, f' a₀ = some (x₀, o) ∧ k' x₀ = some (a₀, o)) :
    Linked f' k' := by
  -- before the change, neither of the two was linked to a third party
  have hf₀ : ∀ x o, f a₀ = some (x, o) → x = x₀ := by
    rintro x o hx
    rcases hold with ⟨hn, _⟩ | ⟨o', ho⟩
    · simp [hn] at hx
    · simp_all
  have hk₀ : ∀ a o, k x₀ = some (a, o) → a = a₀ := by
    rintro a o hx
    rcases hold with ⟨_, hn⟩ | ⟨o', ho⟩
    · simp [hn] at hx
    · have := (h a₀ x₀ o').mp ho
      simp_all
  intro a x o
  by_cases ha : a = a₀
  · subst ha
    by_cases hx : x = x₀
    · subst hx
      rcases hnew with ⟨h₁, h₂⟩ | ⟨o', h₁, h₂⟩ <;> simp [h₁, h₂]
    · rw [hk x hx, ← h a x o]
      constructor
      · intro h₁
        rcases hnew with ⟨h₂, _⟩ | ⟨o', h₂, _⟩ <;> simp_all
      · intro h₁
        exact absurd (hf₀ x o h₁) hx
  · rw [hf a ha, h a x o]
    by_cases hx : x = x₀
    · subst hx
      constructor
      · intro h₁
        exact absurd (hk₀ a o h₁) ha
      · intro h₁
        rcases hnew with ⟨_, h₂⟩ | ⟨o', _, h₂⟩ <;> simp_all
    · rw [hk x hx]

end Linked

end Yfs.Lib
