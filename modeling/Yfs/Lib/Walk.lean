import Mathlib.Data.List.Basic
import Yfs.Lib.SortedMap

/-!
# Walking through a map

The loop `for (i = m.begin(); i != m.end(); i++)`, whose body may change the map. An iterator is the
key of the element that it points to, or `none` at the end. It may be used only as long as the element
is in the map: `++` after the element was erased is an error.

A body that leaves everything as it is goes through the whole map (`run_of_unchanged`). The first one
that erases its own element is the last one (`run_erased`).
-/

namespace Yfs.Lib

variable {α β σ ε : Type} [LinearOrder α]

namespace SortedMap

/-- The element that an iterator points to, if it is there. -/
def find (m : SortedMap α β) (k : α) : Option β := (m.entries.find? fun p => p.1 = k).map Prod.snd

def erase (m : SortedMap α β) (k : α) : SortedMap α β :=
  ⟨m.entries.filter fun p => p.1 ≠ k, m.sorted.filter _⟩

/-- `begin()`. -/
def first (m : SortedMap α β) : Option α := m.entries.head?.map Prod.fst

/-- The iterator behind the element of `k`. -/
def after (m : SortedMap α β) (k : α) : Option α := (m.entries.find? fun p => k < p.1).map Prod.fst

theorem find_erase (m : SortedMap α β) (k : α) : (m.erase k).find k = none := by
  simp [find, erase]

section
variable {m : SortedMap α β} {pre post : List (α × β)} {p : α × β}

theorem lt_of_split (h : m.entries = pre ++ p :: post) :
    (∀ q ∈ pre, q.1 < p.1) ∧ ∀ q ∈ post, p.1 < q.1 := by
  have hs : Sorted (pre ++ p :: post) := h ▸ m.sorted
  obtain ⟨-, hpost, hpre⟩ := List.pairwise_append.mp hs
  exact ⟨fun q hq => hpre q hq p (by simp), (List.pairwise_cons.mp hpost).1⟩

theorem find_of_split (h : m.entries = pre ++ p :: post) : m.find p.1 = some p.2 := by
  have hpre := (lt_of_split h).1
  rw [find, h, List.find?_append, List.find?_eq_none.mpr]
  · simp
  · intro q hq
    simpa using (hpre q hq).ne

theorem after_of_split (h : m.entries = pre ++ p :: post) : m.after p.1 = post.head?.map Prod.fst := by
  obtain ⟨hpre, hpost⟩ := lt_of_split h
  rw [after, h, List.find?_append, List.find?_eq_none.mpr]
  · cases post with
    | nil => simp
    | cons q post => simp [hpost q (by simp)]
  · intro q hq
    simpa using (hpre q hq).le

end

end SortedMap

/-- A loop over the map of a state. -/
structure Walk (α β σ ε : Type) [LinearOrder α] where
  map : σ → SortedMap α β
  body : α → σ → Except ε σ
  /-- The iterator is used when its element was erased. -/
  erased : ε
  /-- There were more rounds than elements. -/
  unfinished : ε

namespace Walk

variable (W : Walk α β σ ε)

/-- The rest of the loop, for at most `n` rounds. -/
def loop : Nat → Option α → σ → Except ε σ
  | _, none, s => .ok s
  | 0, some _, _ => .error W.unfinished
  | n + 1, some k, s => do
      let s ← W.body k s
      if ((W.map s).find k).isSome then loop n ((W.map s).after k) s else .error W.erased

def run (s : σ) : Except ε σ := W.loop (W.map s).entries.length (W.map s).first s

variable {W} {s s' : σ}

/-- Elements whose bodies change nothing are passed. -/
theorem loop_append (done pre rest : List (α × β)) (n : Nat)
    (h : (W.map s).entries = done ++ (pre ++ rest)) (hpre : ∀ q ∈ pre, W.body q.1 s = .ok s) :
    W.loop (pre.length + n) ((pre ++ rest).head?.map Prod.fst) s =
      W.loop n (rest.head?.map Prod.fst) s := by
  induction pre generalizing done with
  | nil => simp
  | cons q pre ih =>
      have hsplit : (W.map s).entries = (done ++ [q]) ++ (pre ++ rest) := by simp [h]
      have hq : (W.map s).entries = done ++ q :: (pre ++ rest) := h
      have hfind : ((W.map s).find q.1).isSome := by
        rw [SortedMap.find_of_split hq]
        rfl
      have hafter := SortedMap.after_of_split hq
      rw [← ih _ hsplit fun p hp => hpre p (List.mem_cons_of_mem q hp), List.length_cons,
        show pre.length + 1 + n = (pre.length + n) + 1 by omega]
      show (W.body q.1 s >>= _) = _
      rw [hpre q (by simp)]
      show (if _ then _ else _) = _
      rw [if_pos hfind, hafter]

theorem run_of_unchanged (h : ∀ q ∈ (W.map s).entries, W.body q.1 s = .ok s) : W.run s = .ok s := by
  have hloop := loop_append [] (W.map s).entries [] 0 (by simp) h
  rw [List.append_nil] at hloop
  exact hloop

theorem run_erased {pre post : List (α × β)} {p : α × β} (h : (W.map s).entries = pre ++ p :: post)
    (hpre : ∀ q ∈ pre, W.body q.1 s = .ok s) (hp : W.body p.1 s = .ok s')
    (hgone : (W.map s').find p.1 = none) : W.run s = .error W.erased := by
  have hloop := loop_append [] pre (p :: post) (post.length + 1) h hpre
  rw [run, SortedMap.first, h, List.length_append, List.length_cons, hloop]
  show (W.body p.1 s >>= _) = _
  rw [hp]
  show (if _ then _ else _) = _
  rw [hgone]
  rfl

end Walk

end Yfs.Lib
