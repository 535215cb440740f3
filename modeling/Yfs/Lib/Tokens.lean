import Mathlib.Data.List.Basic

/-!
# Searching a string of tokens

A list of tokens can be kept in one flat string, each token followed by a separator that occurs in
none of them (`joinSep`). A token between two separators is then found by searching for it with a
separator on either side, and the start of the token before it by searching backwards for a
separator. `find`, `rfind` and `findFirstOf` are the searches of a string library: `find_joinSep` and
`find_joinSep_none` say where `find` stops, `rfind_joinSep` where `rfind` does, `findFirstOf_token`
where `findFirstOf` does.
-/

namespace Yfs.Lib

variable {α : Type} {sep : α} {name t₀ t : List α} {ts pre : List (List α)}

/-- The first position where `p` occurs in a list. -/
def find [DecidableEq α] (p : List α) : List α → Option Nat
  | [] => if p = [] then some 0 else none
  | a :: l => if p <+: a :: l then some 0 else (find p l).map (· + 1)

/-- The last position up to `pos` where `c` occurs in a list. -/
def rfind [DecidableEq α] (c : α) (l : List α) (pos : Nat) : Option Nat :=
  let l := (l.take (pos + 1)).reverse
  (l.findIdx? (· = c)).map fun k => l.length - 1 - k

/-- At most `n` elements from position `pos` on. -/
def substr (l : List α) (pos n : Nat) : List α := (l.drop pos).take n

/-- Every token with the separator after it. -/
def joinSep (sep : α) (ts : List (List α)) : List α := ts.flatMap fun t => t ++ [sep]

@[simp] theorem joinSep_nil : joinSep sep ([] : List (List α)) = [] := rfl

@[simp] theorem joinSep_cons : joinSep sep (t :: ts) = t ++ sep :: joinSep sep ts := by
  simp [joinSep]

@[simp] theorem joinSep_append (pre post : List (List α)) :
    joinSep sep (pre ++ post) = joinSep sep pre ++ joinSep sep post := by
  simp [joinSep]

/-! ## Searching forwards -/

/-- One token with the separator after it is a prefix of another only if they are equal. -/
theorem prefix_token_iff (hn : sep ∉ name) (ht : sep ∉ t) (l : List α) :
    name ++ [sep] <+: t ++ sep :: l ↔ name = t := by
  constructor
  · intro h
    induction name generalizing t with
    | nil => cases t <;> simp_all
    | cons b name ih =>
        cases t with
        | nil => simp_all
        | cons a t =>
            simp only [List.cons_append, List.cons_prefix_cons, List.mem_cons, not_or] at *
            rw [h.1, ih hn.2 ht.2 h.2]
  · rintro rfl
    exact ⟨l, by simp⟩

/-- The tokens can be read back. -/
theorem joinSep_inj {us : List (List α)} (hts : ∀ t ∈ ts, sep ∉ t) (hus : ∀ u ∈ us, sep ∉ u)
    (h : joinSep sep ts = joinSep sep us) : ts = us := by
  induction ts generalizing us with
  | nil => cases us <;> simp_all
  | cons t ts ih =>
      cases us with
      | nil => simp at h
      | cons u us =>
          rw [joinSep_cons, joinSep_cons] at h
          have hpre : t ++ [sep] <+: u ++ sep :: joinSep sep us := ⟨joinSep sep ts, by simp [h]⟩
          obtain rfl : t = u := (prefix_token_iff (hts t (by simp)) (hus u (by simp)) _).mp hpre
          have htail : joinSep sep ts = joinSep sep us := by simpa using h
          rw [ih (fun t ht => hts t (by simp [ht])) (fun u hu => hus u (by simp [hu])) htail]

variable [DecidableEq α]

/-- A pattern that starts with the separator does not occur inside a token. -/
theorem find_append (p l : List α) (ht : sep ∉ t) :
    find (sep :: p) (t ++ l) = (find (sep :: p) l).map (· + t.length) := by
  induction t with
  | nil => simp
  | cons a t ih =>
      rw [List.mem_cons, not_or] at ht
      have hno : ¬ sep :: p <+: a :: (t ++ l) := fun h => ht.1 (List.cons_prefix_cons.mp h).1
      rw [List.cons_append, find, if_neg hno, ih ht.2, Option.map_map]
      simp [Function.comp_def, Nat.add_assoc]

/-- Searching from a separator on: the next token is the one, or it is passed over. -/
theorem find_sep_cons (hn : sep ∉ name) (ht : sep ∉ t) (l : List α) :
    find (sep :: (name ++ [sep])) (sep :: (t ++ sep :: l)) =
      if name = t then some 0
      else (find (sep :: (name ++ [sep])) (sep :: l)).map (· + (t.length + 1)) := by
  have hiff : sep :: (name ++ [sep]) <+: sep :: (t ++ sep :: l) ↔ name = t := by
    rw [List.cons_prefix_cons, prefix_token_iff hn ht]
    simp
  rw [find]
  by_cases h : name = t
  · rw [if_pos (hiff.mpr h), if_pos h]
  · rw [if_neg (mt hiff.mp h), if_neg h, find_append _ _ ht, Option.map_map]
    simp [Function.comp_def, Nat.add_assoc]

/-- A token that is not there after the first one is not found. -/
theorem find_joinSep_none (hn : sep ∉ name) (h₀ : sep ∉ t₀) (hts : ∀ t ∈ ts, sep ∉ t)
    (h : name ∉ ts) : find (sep :: (name ++ [sep])) (joinSep sep (t₀ :: ts)) = none := by
  have hsep : find (sep :: (name ++ [sep])) (sep :: joinSep sep ts) = none := by
    induction ts with
    | nil =>
        have : ¬ sep :: (name ++ [sep]) <+: [sep] := fun h => by simpa using h.length_le
        simp [find, this]
    | cons t ts ih =>
        rw [List.mem_cons, not_or] at h
        rw [joinSep_cons, find_sep_cons hn (hts t (by simp)), if_neg h.1,
          ih (fun t ht => hts t (by simp [ht])) h.2, Option.map_none]
  rw [joinSep_cons, find_append _ _ h₀, hsep, Option.map_none]

/-- The first occurrence of a token after the first one is found, at the separator before it. -/
theorem find_joinSep (hn : sep ∉ name) (h₀ : sep ∉ t₀) (hpre : ∀ t ∈ pre, sep ∉ t)
    (h : name ∉ pre) (post : List (List α)) :
    find (sep :: (name ++ [sep])) (joinSep sep (t₀ :: (pre ++ name :: post))) =
      some ((joinSep sep pre).length + t₀.length) := by
  have hsep : find (sep :: (name ++ [sep])) (sep :: joinSep sep (pre ++ name :: post)) =
      some (joinSep sep pre).length := by
    induction pre with
    | nil => rw [List.nil_append, joinSep_cons, find_sep_cons hn hn, if_pos rfl]; rfl
    | cons t pre ih =>
        rw [List.mem_cons, not_or] at h
        rw [List.cons_append, joinSep_cons, find_sep_cons hn (hpre t (by simp)), if_neg h.1,
          ih (fun t ht => hpre t (by simp [ht])) h.2]
        simp
        omega
  rw [joinSep_cons, find_append _ _ h₀, hsep, Option.map_some]

/-- What is found is a token after the first one, at the end of the token before it. -/
theorem find_joinSep_some (hn : sep ∉ name) (hts : ∀ t ∈ ts, sep ∉ t) {k : Nat}
    (h : find (sep :: (name ++ [sep])) (joinSep sep ts) = some k) :
    ∃ pre a post, ts = pre ++ a :: name :: post ∧ k = (joinSep sep pre).length + a.length := by
  cases ts with
  | nil => simp [find] at h
  | cons t₀ ts =>
      have h₀ : sep ∉ t₀ := hts t₀ (by simp)
      by_cases hmem : name ∈ ts
      · obtain ⟨mid, post, rfl, hno⟩ := List.eq_append_cons_of_mem hmem
        rw [find_joinSep hn h₀ (fun t ht => hts t (by simp [ht])) hno] at h
        cases h
        rcases List.eq_nil_or_concat mid with rfl | ⟨pre, a, rfl⟩
        · exact ⟨[], t₀, post, rfl, by simp⟩
        · refine ⟨t₀ :: pre, a, post, by simp, ?_⟩
          simp
          omega
      · rw [find_joinSep_none hn h₀ (fun t ht => hts t (by simp [ht])) hmem] at h
        cases h

/-! ## Searching for a separator -/

/-- The first position from `pos` on where `c` occurs in a list. -/
def findFirstOf (c : α) (l : List α) (pos : Nat) : Option Nat :=
  ((l.drop pos).findIdx? (· = c)).map (· + pos)

/-- From the start of a token, the next separator is at its end. -/
theorem findFirstOf_token {l r : List α} {pos : Nat} (ht : sep ∉ t)
    (hl : l.drop pos = t ++ sep :: r) : findFirstOf sep l pos = some (pos + t.length) := by
  have hno : t.findIdx? (· = sep) = none := by
    rw [List.findIdx?_eq_none_iff]
    intro a ha
    simp only [decide_eq_false_iff_not]
    rintro rfl
    exact ht ha
  unfold findFirstOf
  rw [hl, List.findIdx?_append, hno]
  simp [List.findIdx?_cons, Nat.add_comm]

theorem findFirstOf_nil {l : List α} {pos : Nat} (hl : l.drop pos = []) :
    findFirstOf sep l pos = none := by
  unfold findFirstOf
  rw [hl]
  rfl

theorem findFirstOf_lt {l : List α} {pos k : Nat} (h : findFirstOf sep l pos = some k) :
    pos ≤ k ∧ k < l.length := by
  obtain ⟨i, hi, rfl⟩ := Option.map_eq_some_iff.mp h
  obtain ⟨hlt, -⟩ := List.findIdx?_eq_some_iff_getElem.mp hi
  rw [List.length_drop] at hlt
  omega

/-! ## Searching backwards -/

/-- From the end of a token, the token starts after the last separator, or at 0. -/
theorem rfind_joinSep (ht : sep ∉ t) (l : List α) {pos : Nat}
    (hpos : pos + 1 = (joinSep sep ts).length + t.length) :
    (rfind sep (joinSep sep ts ++ (t ++ l)) pos).elim 0 (· + 1) = (joinSep sep ts).length := by
  have htake : (joinSep sep ts ++ (t ++ l)).take (pos + 1) = joinSep sep ts ++ t := by
    rw [hpos, ← List.append_assoc, ← List.length_append, List.take_left']
    rfl
  have hno : t.reverse.findIdx? (· = sep) = none := by
    rw [List.findIdx?_eq_none_iff]
    intro a ha
    simp only [decide_eq_false_iff_not]
    rintro rfl
    exact ht (List.mem_reverse.mp ha)
  simp only [rfind, htake, List.reverse_append, List.findIdx?_append, hno, Option.none_or]
  rcases List.eq_nil_or_concat ts with rfl | ⟨us, u, rfl⟩
  · simp
  · simp [List.findIdx?_cons]
    omega

end Yfs.Lib
