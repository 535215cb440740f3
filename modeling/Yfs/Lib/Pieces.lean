import Mathlib.Data.List.Basic

/-!
# Streams that come in pieces

A reader sees a stream one piece at a time: `readPiece pieces count` gives at most `count` elements, and
never from more than one piece. An empty piece stands for a moment at which nothing is there.

`At P pieces` says that `P` holds of every piece and the place in the stream at which it begins. What a
read does to it is in `at_readPiece`.
-/

namespace Yfs.Lib

variable {α : Type} {pieces rest : List (List α)} {piece : List α} {count n : Nat}
  {P Q : Nat → List α → Prop}

/-- Read at most `count` elements of the first piece, and give the number and the pieces that are left.
The number is `none` if nothing is there. -/
def readPiece (pieces : List (List α)) (count : Nat) : Option Nat × List (List α) :=
  match pieces with
  | [] => (none, [])
  | [] :: pieces => (none, pieces)
  | piece :: pieces =>
      if piece.length ≤ count then (some piece.length, pieces)
      else (some count, piece.drop count :: pieces)

/-- A bound for the number of reads. -/
def reads (pieces : List (List α)) : Nat := pieces.flatten.length + pieces.length

/-- A read gives nothing only if nothing is there. -/
theorem readPiece_none (hne : pieces ≠ []) (h : readPiece pieces count = (none, rest)) :
    pieces = [] :: rest := by
  unfold readPiece at h
  split at h
  · exact absurd rfl hne
  · cases h
    rfl
  · split at h <;> cases h

/-- A read gives the first piece, or a part of it. -/
theorem readPiece_some (h : readPiece pieces count = (some n, rest)) :
    ∃ piece pieces', piece ≠ [] ∧ pieces = piece :: pieces' ∧
      (piece.length ≤ count ∧ n = piece.length ∧ rest = pieces' ∨
        count < piece.length ∧ n = count ∧ rest = piece.drop count :: pieces') := by
  unfold readPiece at h
  split at h
  · cases h
  · cases h
  · rename_i piece pieces' hne
    refine ⟨piece, pieces', hne, rfl, ?_⟩
    split at h
    · rename_i hle
      cases h
      exact .inl ⟨hle, rfl, rfl⟩
    · rename_i hle
      cases h
      exact .inr ⟨Nat.lt_of_not_le hle, rfl, rfl⟩

/-- Every piece has the property `P` of its place in the stream and itself. -/
def At (P : Nat → List α → Prop) (pieces : List (List α)) : Prop :=
  ∀ pre piece post, pieces = pre ++ piece :: post → P pre.flatten.length piece

theorem at_nil : At P [] := by
  intro pre piece post h
  simp at h

theorem at_cons : At P (piece :: rest) ↔ P 0 piece ∧ At (fun n => P (piece.length + n)) rest := by
  constructor
  · intro h
    refine ⟨h [] piece rest rfl, ?_⟩
    intro pre piece' post heq
    have := h (piece :: pre) piece' post (by rw [heq]; rfl)
    rw [List.flatten_cons, List.length_append] at this
    exact this
  · intro ⟨hpiece, hrest⟩ pre piece' post heq
    cases pre with
    | nil =>
        obtain ⟨rfl, -⟩ := List.cons.inj heq
        exact hpiece
    | cons _ pre =>
        obtain ⟨rfl, hpost⟩ := List.cons.inj heq
        rw [List.flatten_cons, List.length_append]
        exact hrest pre piece' post hpost

theorem at_congr (h : ∀ n piece, P n piece ↔ Q n piece) : At P pieces ↔ At Q pieces := by
  have hPQ : P = Q := by
    funext n piece
    exact propext (h n piece)
  rw [hPQ]

/-- A read moves the places, provided that `P` does not tell a piece from a part of it. -/
theorem at_readPiece (hzero : ∀ piece, piece ≠ [] → P 0 piece)
    (hpart : ∀ piece, piece ≠ [] → P count piece) (h : readPiece pieces count = (some n, rest)) :
    At P pieces ↔ At (fun k => P (n + k)) rest := by
  obtain ⟨piece, pieces', hpiece, rfl, hcase⟩ := readPiece_some h
  rw [at_cons, and_iff_right (hzero piece hpiece)]
  obtain ⟨-, rfl, rfl⟩ | ⟨hlt, rfl, rfl⟩ := hcase
  · exact Iff.rfl
  · have hdrop : piece.drop n ≠ [] := by
      rw [ne_eq, List.drop_eq_nil_iff]
      omega
    rw [at_cons]
    have hplace : ∀ k, n + ((piece.drop n).length + k) = piece.length + k := by
      intro k
      rw [List.length_drop]
      omega
    simp only [hplace]
    exact (and_iff_right (hpart _ hdrop)).symm

/-- What a read gives is the beginning of the stream. -/
theorem flatten_readPiece (hcount : 0 < count) (h : readPiece pieces count = (some n, rest)) :
    0 < n ∧ n ≤ count ∧ n ≤ pieces.flatten.length ∧ rest.flatten = pieces.flatten.drop n ∧
      reads rest + n ≤ reads pieces := by
  obtain ⟨piece, pieces', hpiece, rfl, hcase⟩ := readPiece_some h
  have hpos := List.length_pos_iff.mpr hpiece
  unfold reads
  simp only [List.flatten_cons, List.length_append, List.length_cons]
  obtain ⟨hle, rfl, rfl⟩ | ⟨hlt, rfl, rfl⟩ := hcase
  · refine ⟨hpos, hle, by omega, ?_, by omega⟩
    rw [List.drop_left]
  · refine ⟨hcount, Nat.le_refl _, by omega, ?_, ?_⟩
    · rw [List.drop_append_of_le_length (Nat.le_of_lt hlt), List.flatten_cons]
    · simp only [List.flatten_cons, List.length_append, List.length_drop, List.length_cons]
      omega

end Yfs.Lib
