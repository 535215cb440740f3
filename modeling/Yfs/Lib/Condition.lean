import Mathlib.Data.Finset.Card

/-!
# Condition variables

The wait set of a condition variable holds the threads that sleep in `pthread_cond_wait`. A signal
takes one thread out of it, and which one is not specified; a broadcast takes all of them out. A
thread that was taken out is awake: it still stands at its wait, and tests its condition again when
it gets the mutex.

A section under the mutex may wake threads up, and ends where the thread goes on or goes to sleep
(`WaitSets.step`). What a section can lose is a wake-up. `Covered w pl c n` says that this has not
happened to the threads that wait for `c`, where `n` counts what they wait for: if a thread sleeps,
there are `n` threads awake, one for each. A section keeps it if it makes no more of what is waited
for than it signals (`Covered.step`).
-/

namespace Yfs.Lib

open Function

/-- A call on a condition variable that wakes threads up. -/
inductive Wake (κ : Type) where
  | signal (c : κ)
  | broadcast (c : κ)
  deriving DecidableEq, Repr

def Wake.isSignal {κ : Type} : Wake κ → Bool
  | signal _ => true
  | broadcast _ => false

/-- The threads that sleep on each condition variable. -/
structure WaitSets (κ τ : Type) where
  sleeping : κ → Finset τ

namespace WaitSets

variable {κ τ : Type}

/-! ## No wake-up is lost -/

/-- Those who sleep on `c` stand at a wait for `c`. -/
def Placed (w : WaitSets κ τ) (pl : τ → Option κ) : Prop := ∀ c t, t ∈ w.sleeping c → pl t = some c

/-- If a thread sleeps on `c`, then `n` threads that stand at a wait for `c` are awake. -/
def Covered (w : WaitSets κ τ) (pl : τ → Option κ) (c : κ) (n : Nat) : Prop :=
  (w.sleeping c).Nonempty → ∃ W : Finset τ, W.card = n ∧ ∀ t ∈ W, pl t = some c ∧ t ∉ w.sleeping c

section

variable {w w' : WaitSets κ τ} {pl : τ → Option κ} {c : κ} {n n' : Nat}

theorem Covered.zero : w.Covered pl c 0 := fun _ => ⟨∅, by simp⟩

theorem Covered.of_empty (h : w.sleeping c = ∅) : w.Covered pl c n := by
  intro hne
  rw [h] at hne
  exact absurd hne Finset.not_nonempty_empty

theorem Covered.mono (h : w.Covered pl c n) (hle : n' ≤ n) : w.Covered pl c n' := by
  intro hne
  obtain ⟨W, hcard, hW⟩ := h hne
  obtain ⟨V, hV, hVcard⟩ := Finset.exists_subset_card_eq (hcard ▸ hle)
  exact ⟨V, hVcard, fun t ht => hW t (hV ht)⟩

/-- Somebody is awake. -/
theorem Covered.exists_awake (h : w.Covered pl c n) (hn : 0 < n) (hne : (w.sleeping c).Nonempty) :
    ∃ t, pl t = some c ∧ t ∉ w.sleeping c := by
  obtain ⟨W, hcard, hW⟩ := h hne
  obtain ⟨t, ht⟩ := Finset.card_pos.mp (hcard ▸ hn)
  exact ⟨t, hW t ht⟩

/-- More threads stand at their waits. -/
theorem Covered.place {pl' : τ → Option κ} (h : w.Covered pl c n)
    (hpl : ∀ t, pl t = some c → pl' t = some c) : w.Covered pl' c n := by
  intro hne
  obtain ⟨W, hcard, hW⟩ := h hne
  exact ⟨W, hcard, fun t ht => ⟨hpl t (hW t ht).1, (hW t ht).2⟩⟩

/-- Covering depends on one wait set only. -/
theorem Covered.congr (h : w.Covered pl c n) (hon : w'.sleeping c = w.sleeping c) :
    w'.Covered pl c n := by
  unfold Covered
  rw [hon]
  exact h

end

/-! ## The calls -/

variable [DecidableEq κ] [DecidableEq τ]

def empty : WaitSets κ τ := ⟨fun _ => ∅⟩

/-- Thread `t` goes to sleep. -/
def sleep (w : WaitSets κ τ) (t : τ) (c : κ) : WaitSets κ τ :=
  ⟨update w.sleeping c (insert t (w.sleeping c))⟩

/-- Thread `t` wakes up. -/
def rouse (w : WaitSets κ τ) (t : τ) (c : κ) : WaitSets κ τ :=
  ⟨update w.sleeping c ((w.sleeping c).erase t)⟩

/-- `pthread_cond_signal`, which wakes `who` up, or nobody if nobody sleeps. -/
def signal (w : WaitSets κ τ) (c : κ) : Option τ → Option (WaitSets κ τ)
  | none => if w.sleeping c = ∅ then some w else none
  | some t => if t ∈ w.sleeping c then some (w.rouse t c) else none

/-- `pthread_cond_broadcast`. -/
def broadcast (w : WaitSets κ τ) (c : κ) : WaitSets κ τ := ⟨update w.sleeping c ∅⟩

/-- The calls of one section, in which a signal wakes `who` up. -/
def wake (who : Option τ) : List (Wake κ) → WaitSets κ τ → Option (WaitSets κ τ)
  | [], w => some w
  | .signal c :: ks, w => (w.signal c who).bind (wake who ks)
  | .broadcast c :: ks, w => wake who ks (w.broadcast c)

/-- Thread `a` runs a section with the calls `ks` and then sleeps on `p`, or goes on. -/
def step (w : WaitSets κ τ) (a : τ) (ks : List (Wake κ)) (who : Option τ) (p : Option κ) :
    Option (WaitSets κ τ) :=
  (wake who ks w).map fun w => p.elim w (w.sleep a)

variable {w w₁ w' : WaitSets κ τ} {pl : τ → Option κ} {c d : κ} {a t : τ} {who : Option τ}
  {ks : List (Wake κ)} {p : Option κ} {n n' : Nat}

/-! ## What a section does to a wait set -/

theorem mem_sleep : t ∈ (w.sleep a d).sleeping c ↔ t ∈ w.sleeping c ∨ t = a ∧ d = c := by
  by_cases h : c = d
  · subst h
    simp [sleep, or_comm]
  · simp [sleep, h, Ne.symm h]

theorem mem_rouse : t ∈ (w.rouse a d).sleeping c ↔ t ∈ w.sleeping c ∧ (t = a → d ≠ c) := by
  by_cases h : c = d
  · subst h
    simp [rouse, and_comm]
  · simp [rouse, h, Ne.symm h]

omit [DecidableEq τ] in
theorem mem_broadcast : t ∈ (w.broadcast d).sleeping c ↔ t ∈ w.sleeping c ∧ d ≠ c := by
  by_cases h : c = d
  · subst h
    simp [broadcast]
  · simp [broadcast, h, Ne.symm h]

/-- Some thread can always be chosen. -/
theorem exists_signal (w : WaitSets κ τ) (c : κ) : ∃ who w', w.signal c who = some w' := by
  rcases (w.sleeping c).eq_empty_or_nonempty with h | ⟨t, ht⟩
  · exact ⟨none, w, by simp [signal, h]⟩
  · exact ⟨some t, w.rouse t c, by simp [signal, ht]⟩

theorem signal_cases (h : w.signal d who = some w') :
    w.sleeping d = ∅ ∧ w' = w ∨ ∃ t ∈ w.sleeping d, w' = w.rouse t d := by
  cases who with
  | none =>
      simp only [signal, Option.ite_none_right_eq_some, Option.some.injEq] at h
      exact .inl ⟨h.1, h.2.symm⟩
  | some t =>
      simp only [signal, Option.ite_none_right_eq_some, Option.some.injEq] at h
      exact .inr ⟨t, h.1, h.2.symm⟩

theorem exists_wake_broadcast (h : ∀ k ∈ ks, k.isSignal = false) (who : Option τ)
    (w : WaitSets κ τ) : ∃ w', wake who ks w = some w' := by
  induction ks generalizing w with
  | nil => exact ⟨w, rfl⟩
  | cons k ks ih =>
      cases k with
      | signal d => simp [Wake.isSignal] at h
      | broadcast d => exact ih (fun k hk => h k (List.mem_cons_of_mem _ hk)) _

/-- A section with at most one signal can always be run, for some choice of the thread. -/
theorem exists_step (h : ks.countP Wake.isSignal ≤ 1) (w : WaitSets κ τ) (a : τ) (p : Option κ) :
    ∃ who w', w.step a ks who p = some w' := by
  suffices ∃ who w', wake who ks w = some w' by
    obtain ⟨who, w', hw⟩ := this
    exact ⟨who, _, by rw [step, hw]; rfl⟩
  induction ks generalizing w with
  | nil => exact ⟨none, w, rfl⟩
  | cons k ks ih =>
      cases k with
      | signal d =>
          obtain ⟨who, w₁, hs⟩ := exists_signal w d
          have hks : ∀ k ∈ ks, k.isSignal = false := by
            simpa [List.countP_cons, Wake.isSignal, List.countP_eq_zero] using h
          obtain ⟨w', hw⟩ := exists_wake_broadcast hks who w₁
          exact ⟨who, w', by rw [wake, hs]; exact hw⟩
      | broadcast d => exact ih (by simpa [List.countP_cons, Wake.isSignal] using h) _

/-- Nobody falls asleep by being called. -/
theorem mem_of_wake (h : wake who ks w = some w') (ht : t ∈ w'.sleeping c) :
    t ∈ w.sleeping c ∧ .broadcast c ∉ ks := by
  induction ks generalizing w with
  | nil =>
      cases h
      simpa using ht
  | cons k ks ih =>
      cases k with
      | signal d =>
          obtain ⟨w₁, h₁, h⟩ := Option.bind_eq_some_iff.mp h
          obtain ⟨hmem, hks⟩ := ih h
          refine ⟨?_, by simpa using hks⟩
          rcases signal_cases h₁ with ⟨-, rfl⟩ | ⟨u, -, rfl⟩
          · exact hmem
          · exact (mem_rouse.mp hmem).1
      | broadcast d =>
          obtain ⟨hmem, hks⟩ := ih h
          obtain ⟨hmem, hne⟩ := mem_broadcast.mp hmem
          refine ⟨hmem, ?_⟩
          simp [hks, Ne.symm hne]

theorem step_eq_some : w.step a ks who p = some w' ↔
    ∃ w₁, wake who ks w = some w₁ ∧ p.elim w₁ (w₁.sleep a) = w' := by
  simp [step]

theorem mem_elim_sleep :
    t ∈ (p.elim w (w.sleep a)).sleeping c ↔ t ∈ w.sleeping c ∨ t = a ∧ p = some c := by
  cases p with
  | none => simp
  | some d => simp [mem_sleep]

/-- Who sleeps after a section slept before it and was not called, or has just gone to sleep. -/
theorem mem_of_step (h : w.step a ks who p = some w') (ht : t ∈ w'.sleeping c) :
    t ∈ w.sleeping c ∧ .broadcast c ∉ ks ∨ t = a ∧ p = some c := by
  obtain ⟨w₁, hw, rfl⟩ := step_eq_some.mp h
  rcases mem_elim_sleep.mp ht with ht | ht
  · exact .inl (mem_of_wake hw ht)
  · exact .inr ht

theorem Placed.step (h : w.Placed pl) (ha : ∀ c, a ∉ w.sleeping c)
    (hw : w.step a ks who p = some w') : w'.Placed (update pl a p) := by
  intro c t ht
  rcases mem_of_step hw ht with ⟨ht, -⟩ | ⟨rfl, hp⟩
  · have hne : t ≠ a := by
      rintro rfl
      exact ha c ht
    rw [update_of_ne hne]
    exact h c t ht
  · rw [update_self, hp]

theorem Placed.rouse (h : w.Placed pl) : (w.rouse a d).Placed pl := by
  intro c t ht
  exact h c t (mem_rouse.mp ht).1

/-! ## Sections lose no wake-up -/

/-- One more thread is awake, for whatever reason. -/
theorem Covered.rouse (h : w.Covered pl c n) : (w.rouse t d).Covered pl c n := by
  intro hne
  obtain ⟨u, hu⟩ := hne
  obtain ⟨W, hcard, hW⟩ := h ⟨u, (mem_rouse.mp hu).1⟩
  exact ⟨W, hcard, fun v hv => ⟨(hW v hv).1, fun hmem => (hW v hv).2 (mem_rouse.mp hmem).1⟩⟩

theorem Covered.signal (h : w.Covered pl c n) (hpl : w.Placed pl)
    (hs : w.signal c who = some w') : w'.Covered pl c (n + 1) := by
  rcases signal_cases hs with ⟨hempty, rfl⟩ | ⟨t, ht, rfl⟩
  · exact .of_empty hempty
  · intro hne
    obtain ⟨W, hcard, hW⟩ := h ⟨t, ht⟩
    have htW : t ∉ W := fun hmem => (hW t hmem).2 ht
    refine ⟨insert t W, by rw [Finset.card_insert_of_notMem htW, hcard], fun u hu => ?_⟩
    rcases Finset.mem_insert.mp hu with rfl | hu
    · exact ⟨hpl c u ht, fun hmem => (mem_rouse.mp hmem).2 rfl rfl⟩
    · exact ⟨(hW u hu).1, fun hmem => (hW u hu).2 (mem_rouse.mp hmem).1⟩

theorem Placed.signal (h : w.Placed pl) (hs : w.signal d who = some w') : w'.Placed pl := by
  rcases signal_cases hs with ⟨-, rfl⟩ | ⟨t, -, rfl⟩
  · exact h
  · exact h.rouse

/-- Each signal wakes up one more. -/
theorem Covered.wake (h : w.Covered pl c n) (hpl : w.Placed pl) (hw : wake who ks w = some w') :
    w'.Covered pl c (n + ks.count (.signal c)) := by
  induction ks generalizing w n with
  | nil =>
      cases hw
      simpa using h
  | cons k ks ih =>
      cases k with
      | signal d =>
          obtain ⟨w₁, h₁, hw⟩ := Option.bind_eq_some_iff.mp hw
          by_cases hd : d = c
          · subst hd
            have := ih (h.signal hpl h₁) (hpl.signal h₁) hw
            rwa [List.count_cons_self, Nat.add_comm _ 1, ← Nat.add_assoc]
          · rw [List.count_cons_of_ne (by simpa using hd)]
            refine ih ?_ (hpl.signal h₁) hw
            rcases signal_cases h₁ with ⟨-, rfl⟩ | ⟨t, -, rfl⟩
            · exact h
            · exact h.rouse
      | broadcast d =>
          rw [List.count_cons_of_ne (by simp)]
          have hpl' : (w.broadcast d).Placed pl := fun c t ht => hpl c t (mem_broadcast.mp ht).1
          refine ih ?_ hpl' hw
          by_cases hd : d = c
          · subst hd
            exact .of_empty (by simp [WaitSets.broadcast])
          · exact h.congr (update_of_ne (Ne.symm hd) _ _)

/-- Thread `a` leaves its wait, or comes from elsewhere. -/
theorem Covered.move (h : w.Covered pl c n) :
    w.Covered (update pl a p) c (n - if pl a = some c then 1 else 0) := by
  intro hne
  obtain ⟨W, hcard, hW⟩ := h hne
  have hother : ∀ t ∈ W.erase a, update pl a p t = some c ∧ t ∉ w.sleeping c := by
    intro t ht
    obtain ⟨hta, ht⟩ := Finset.mem_erase.mp ht
    rw [update_of_ne hta]
    exact hW t ht
  by_cases hpl : pl a = some c
  · rw [if_pos hpl]
    obtain ⟨V, hV, hVcard⟩ := Finset.exists_subset_card_eq
      (show n - 1 ≤ (W.erase a).card from hcard ▸ Finset.pred_card_le_card_erase)
    exact ⟨V, hVcard, fun t ht => hother t (hV ht)⟩
  · have hmem : a ∉ W := fun hmem => hpl (hW a hmem).1
    rw [if_neg hpl]
    rw [Finset.erase_eq_of_notMem hmem] at hother
    exact ⟨W, hcard, hother⟩

/-- The signal rule. Thread `a` runs a section that leaves `n'` of what is waited
for on `c`: there is nothing, or all were called, or there is no more than before and than was
signalled. -/
theorem Covered.step (h : w.Covered pl c n) (hpl : w.Placed pl)
    (hw : w.step a ks who p = some w')
    (hn : n' = 0 ∨ (.broadcast c ∈ ks ∧ p ≠ some c) ∨
      (n' + (if pl a = some c then 1 else 0) ≤ n + ks.count (.signal c) ∧ p ≠ some c)) :
    w'.Covered (update pl a p) c n' := by
  rcases hn with rfl | ⟨hks, hp⟩ | ⟨hle, hp⟩
  · exact .zero
  · -- nobody sleeps any more
    refine .of_empty (Finset.eq_empty_of_forall_notMem fun t ht => ?_)
    rcases mem_of_step hw ht with ⟨-, hno⟩ | ⟨-, hp'⟩
    · exact hno hks
    · exact hp hp'
  · obtain ⟨w₁, hwake, rfl⟩ := step_eq_some.mp hw
    have hon : (p.elim w₁ (w₁.sleep a)).sleeping c = w₁.sleeping c := by
      ext t
      rw [mem_elim_sleep]
      simp [hp]
    have hcov := ((h.wake hpl hwake).move (a := a) (p := p)).congr hon
    exact hcov.mono (by omega)

end WaitSets

end Yfs.Lib
