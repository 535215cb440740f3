import Yfs.Lib.System

/-!
# Runs that come to an end

A run is bounded if each step lowers a rank. The rank may depend on more than the state shows, so it
is a relation: `B s n` says that `s` has the rank `n`. `exec_length_le` bounds the number of steps by
the rank at the start.

Ranks are put together from the parts of a state by `total`, the sum of the ranks of the members of
a list, and by `pack`, which ranks a pair by its first component before its second.
-/

namespace Yfs.Lib

section

variable {σ α ε : Type} {S : System σ α ε}

/-- Each step lowers the rank, so there are at most as many as the rank says. -/
theorem exec_length_le {B : σ → Nat → Prop}
    (hstep : ∀ s n a s' es, B s n → S.next s a = some (s', es) → ∃ m < n, B s' m)
    {s s' : σ} {n : Nat} {as : List α} {es : List ε} (h : B s n)
    (he : S.exec s as = some (s', es)) : as.length ≤ n := by
  induction as generalizing s n es with
  | nil => exact Nat.zero_le n
  | cons a as ih =>
      obtain ⟨s₁, es₁, es₂, ha, has, -⟩ := System.exec_cons.mp he
      obtain ⟨m, hm, hB⟩ := hstep s n a s₁ es₁ h ha
      have := ih hB has
      rw [List.length_cons]
      omega

end

section

variable {α : Type} {f g : α → Nat} {l : List α} {b : Nat}

/-- The sum of `f` over the list. -/
def total (f : α → Nat) : List α → Nat
  | [] => 0
  | x :: l => f x + total f l

theorem total_le (h : ∀ x ∈ l, f x ≤ g x) : total f l ≤ total g l := by
  induction l with
  | nil => exact Nat.le_refl _
  | cons x l ih =>
      have hx := h x List.mem_cons_self
      have hl := ih fun y hy => h y (List.mem_cons_of_mem x hy)
      unfold total
      omega

theorem total_lt (h : ∀ x ∈ l, f x ≤ g x) {y : α} (hy : y ∈ l) (hlt : f y < g y) :
    total f l < total g l := by
  induction l with
  | nil => cases hy
  | cons x l ih =>
      have hx := h x List.mem_cons_self
      have hl : ∀ z ∈ l, f z ≤ g z := fun z hz => h z (List.mem_cons_of_mem x hz)
      unfold total
      rcases List.mem_cons.mp hy with rfl | hy
      · have := total_le hl
        omega
      · have := ih hl hy
        omega

theorem total_bound (h : ∀ x, f x ≤ b) (l : List α) : total f l ≤ b * l.length := by
  induction l with
  | nil => exact Nat.zero_le _
  | cons x l ih =>
      have hx := h x
      unfold total
      rw [List.length_cons, Nat.mul_succ]
      omega

end

/-- The rank of a pair whose second component is at most `b`. -/
def pack (b x y : Nat) : Nat := x * (b + 1) + y

theorem pack_le {b x x' y y' : Nat} (hx : x' ≤ x) (hy : y' ≤ y) : pack b x' y' ≤ pack b x y :=
  Nat.add_le_add (Nat.mul_le_mul_right _ hx) hy

theorem pack_lt_of_fst {b x x' y y' : Nat} (hy : y' ≤ b) (hx : x' < x) :
    pack b x' y' < pack b x y := by
  calc pack b x' y' < x' * (b + 1) + (b + 1) := by unfold pack; omega
    _ = (x' + 1) * (b + 1) := (Nat.succ_mul _ _).symm
    _ ≤ x * (b + 1) := Nat.mul_le_mul_right _ hx
    _ ≤ pack b x y := Nat.le_add_right _ _

theorem pack_lt_of_snd {b x x' y y' : Nat} (hx : x' ≤ x) (hy : y' < y) :
    pack b x' y' < pack b x y :=
  Nat.add_lt_add_of_le_of_lt (Nat.mul_le_mul_right _ hx) hy

end Yfs.Lib
