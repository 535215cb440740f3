import Mathlib.Logic.Function.Basic
import Mathlib.Data.List.Basic

/-!
# Transition systems with events

A `System` is a set of initial states and a step function. A step is chosen by an action, may be
disabled (`none`), and emits a list of events when it is taken. `Run τ s` says that some
sequence of actions leads from an initial state to `s` and emits the events `τ`, oldest first.

* `Run.invariant` and `Reachable.invariant` package the induction over a run: what holds at
  the start and survives one step holds at every point of every run.
* `System.pi` is the interleaving of a family of systems. A run of it restricts to a run of each
  member (`Run.proj`), so a safety property of the members holds of the whole.
* `exec` runs a fixed list of actions, for concrete runs.
* `Forgets` compares a system with one that keeps less in its state, or lets more happen.
-/

namespace Yfs.Lib

/-- A transition system over states `σ`, actions `α` and events `ε`. -/
structure System (σ α ε : Type) where
  init : σ → Prop
  next : σ → α → Option (σ × List ε)

namespace System

variable {σ α ε ι : Type}

/-- `S.Run τ s`: a run of `S` that has emitted `τ` and stands in `s`. -/
inductive Run (S : System σ α ε) : List ε → σ → Prop where
  | start {s} : S.init s → Run S [] s
  | step {τ s a s' es} : Run S τ s → S.next s a = some (s', es) → Run S (τ ++ es) s'

/-- A state some run of `S` stands in. -/
def Reachable (S : System σ α ε) (s : σ) : Prop := ∃ τ, S.Run τ s

variable {S : System σ α ε}

/-! ## Invariants -/

/-- The invariant rule: `I` may relate the state to the events emitted so far. -/
theorem Run.invariant {I : List ε → σ → Prop} (h₀ : ∀ s, S.init s → I [] s)
    (hstep : ∀ τ s a s' es, I τ s → S.next s a = some (s', es) → I (τ ++ es) s')
    {τ : List ε} {s : σ} (h : S.Run τ s) : I τ s := by
  induction h with
  | start hs => exact h₀ _ hs
  | step _ hn ih => exact hstep _ _ _ _ _ ih hn

/-- The invariant rule for a property of states alone. -/
theorem Reachable.invariant {I : σ → Prop} (h₀ : ∀ s, S.init s → I s)
    (hstep : ∀ s a s' es, I s → S.next s a = some (s', es) → I s')
    {s : σ} (h : S.Reachable s) : I s := by
  obtain ⟨τ, hτ⟩ := h
  exact hτ.invariant (I := fun _ s => I s) h₀ (fun _ s a s' es hi hn => hstep s a s' es hi hn)

/-! ## Histories -/

/-- Every event of `τ` has the property `P` of the history before it and itself. -/
def Each (P : List ε → ε → Prop) (τ : List ε) : Prop :=
  ∀ pre e post, τ = pre ++ e :: post → P pre e

theorem each_nil {P : List ε → ε → Prop} : Each P [] := by
  intro pre e post h
  simp at h

theorem Each.append {P : List ε → ε → Prop} {τ es : List ε} (h : Each P τ)
    (hes : Each (fun pre => P (τ ++ pre)) es) : Each P (τ ++ es) := by
  intro pre e post heq
  rcases List.append_eq_append_iff.mp heq with ⟨l, rfl, hl⟩ | ⟨l, rfl, hl⟩
  · exact hes l e post hl
  · cases l with
    | nil => simpa using hes [] e post hl.symm
    | cons e' l =>
        obtain ⟨rfl, -⟩ := List.cons.inj hl
        exact h pre _ l rfl

theorem each_singleton {P : List ε → ε → Prop} {e : ε} (h : P [] e) : Each P [e] := by
  intro pre e' post heq
  cases pre with
  | nil =>
      obtain ⟨rfl, -⟩ := List.cons.inj heq
      exact h
  | cons _ pre => simp at heq

/-! ## Concrete runs -/

/-- Take the actions of a list in order. -/
def exec (S : System σ α ε) : σ → List α → Option (σ × List ε)
  | s, [] => some (s, [])
  | s, a :: as => do
      let (s₁, es₁) ← S.next s a
      let (s₂, es₂) ← S.exec s₁ as
      return (s₂, es₁ ++ es₂)

theorem exec_cons {s s' : σ} {a : α} {as : List α} {es : List ε} :
    S.exec s (a :: as) = some (s', es) ↔ ∃ s₁ es₁ es₂, S.next s a = some (s₁, es₁) ∧
      S.exec s₁ as = some (s', es₂) ∧ es = es₁ ++ es₂ := by
  simp only [exec, Option.bind_eq_bind, Option.pure_def, Option.bind_eq_some_iff, Prod.exists,
    Option.some.injEq, Prod.mk.injEq]
  constructor
  · rintro ⟨s₁, es₁, hn, _, es₂, hexec, rfl, rfl⟩
    exact ⟨s₁, es₁, es₂, hn, hexec, rfl⟩
  · rintro ⟨s₁, es₁, es₂, hn, hexec, rfl⟩
    exact ⟨s₁, es₁, hn, s', es₂, hexec, rfl, rfl⟩

theorem Run.exec {τ es : List ε} {s s' : σ} {as : List α} (h : S.Run τ s)
    (he : S.exec s as = some (s', es)) : S.Run (τ ++ es) s' := by
  induction as generalizing τ s es with
  | nil =>
      cases he
      simpa using h
  | cons a as ih =>
      obtain ⟨s₁, es₁, es₂, ha, has, rfl⟩ := exec_cons.mp he
      rw [← List.append_assoc]
      exact ih (h.step ha) has

theorem exec_append {s s' : σ} {as bs : List α} {es : List ε} :
    S.exec s (as ++ bs) = some (s', es) ↔ ∃ s₁ es₁ es₂, S.exec s as = some (s₁, es₁) ∧
      S.exec s₁ bs = some (s', es₂) ∧ es = es₁ ++ es₂ := by
  induction as generalizing s s' es with
  | nil => simp [exec]
  | cons a as ih =>
      simp only [List.cons_append, exec_cons, ih]
      constructor
      · rintro ⟨s₁, es₁, _, hn, ⟨s₂, es₂, es₃, has, hbs, rfl⟩, rfl⟩
        exact ⟨s₂, es₁ ++ es₂, es₃, ⟨s₁, es₁, es₂, hn, has, rfl⟩, hbs, by simp⟩
      · rintro ⟨s₂, _, es₃, ⟨s₁, es₁, es₂, hn, has, rfl⟩, hbs, rfl⟩
        exact ⟨s₁, es₁, es₂ ++ es₃, hn, ⟨s₂, es₂, es₃, has, hbs, rfl⟩, by simp⟩

theorem exec_singleton {s s' : σ} {a : α} {es : List ε} :
    S.exec s [a] = some (s', es) ↔ S.next s a = some (s', es) := by
  cases h : S.next s a <;> simp [exec, h, Prod.ext_iff]

/-- An event is emitted by one of the actions. -/
theorem exec_mem {s s' : σ} {as : List α} {es : List ε} {e : ε} (h : S.exec s as = some (s', es))
    (he : e ∈ es) : ∃ pre a post s₁ s₂ es₁ es₂, as = pre ++ a :: post ∧
      S.exec s pre = some (s₁, es₁) ∧ S.next s₁ a = some (s₂, es₂) ∧ e ∈ es₂ := by
  induction as generalizing s es with
  | nil =>
      cases h
      cases he
  | cons a as ih =>
      obtain ⟨s₁, es₁, es₂, ha, has, rfl⟩ := exec_cons.mp h
      rcases List.mem_append.mp he with he | he
      · exact ⟨[], a, as, s, s₁, [], es₁, rfl, rfl, ha, he⟩
      · obtain ⟨pre, b, post, s₂, s₃, es₃, es₄, rfl, hpre, hn, he⟩ := ih has he
        exact ⟨a :: pre, b, post, s₂, s₃, es₁ ++ es₃, es₄, rfl,
          exec_cons.mpr ⟨s₁, es₁, es₃, ha, hpre, rfl⟩, hn, he⟩

/-- A list of actions that can be taken from an initial state, and what holds at its end, by
computation. -/
theorem exists_run {s : σ} {p : List ε → σ → Prop} [∀ es s, Decidable (p es s)] (as : List α)
    (h : S.init s) (he : (S.exec s as).any (fun r => p r.2 r.1) = true) :
    ∃ τ s', S.Run τ s' ∧ p τ s' := by
  cases hr : S.exec s as with
  | none => simp [hr] at he
  | some r =>
      refine ⟨r.2, r.1, ?_, by simpa [hr] using he⟩
      simpa using (Run.start h).exec hr

theorem exists_reachable {s : σ} {p : σ → Prop} [DecidablePred p] (as : List α)
    (h : S.init s) (he : (S.exec s as).any (fun r => p r.1) = true) :
    ∃ s', S.Reachable s' ∧ p s' := by
  obtain ⟨τ, s', hrun, hp⟩ := exists_run (p := fun _ s => p s) as h he
  exact ⟨s', ⟨τ, hrun⟩, hp⟩

/-! ## Forgetting a part of the state -/

section

variable {σ' : Type} {S' : System σ' α ε} {f : σ → σ'}

/-- Every step of `S` is one of `S'`, on what `f` leaves of the state. -/
def Forgets (f : σ → σ') (S : System σ α ε) (S' : System σ' α ε) : Prop :=
  ∀ s a s' es, S.next s a = some (s', es) → S'.next (f s) a = some (f s', es)

theorem Forgets.run (hf : Forgets f S S') (h₀ : ∀ s, S.init s → S'.init (f s)) {τ : List ε} {s : σ}
    (h : S.Run τ s) : S'.Run τ (f s) := by
  induction h with
  | start hs => exact .start (h₀ _ hs)
  | step _ hn ih => exact ih.step (hf _ _ _ _ hn)

theorem Forgets.exec (hf : Forgets f S S') {s s' : σ} {as : List α} {es : List ε}
    (h : S.exec s as = some (s', es)) : S'.exec (f s) as = some (f s', es) := by
  induction as generalizing s es with
  | nil =>
      cases h
      rfl
  | cons a as ih =>
      obtain ⟨s₁, es₁, es₂, ha, has, rfl⟩ := exec_cons.mp h
      exact exec_cons.mpr ⟨f s₁, es₁, es₂, hf _ _ _ _ ha, ih has, rfl⟩

end

/-! ## Interleaving -/

/-- One system for each index, interleaved; an action names the one that moves. -/
def pi [DecidableEq ι] (S : ι → System σ α ε) : System (ι → σ) (ι × α) (ι × ε) where
  init w := ∀ i, (S i).init (w i)
  next w a := ((S a.1).next (w a.1) a.2).map fun r =>
    (Function.update w a.1 r.1, r.2.map fun e => (a.1, e))

/-- The events of system `i`. -/
def proj [DecidableEq ι] (i : ι) (τ : List (ι × ε)) : List ε :=
  τ.filterMap fun e => if e.1 = i then some e.2 else none

theorem proj_map_self [DecidableEq ι] (i : ι) (es : List ε) :
    proj i (es.map fun e => (i, e)) = es := by
  simp [proj, List.filterMap_map]

theorem proj_map_ne [DecidableEq ι] {i j : ι} (h : j ≠ i) (es : List ε) :
    proj i (es.map fun e => (j, e)) = [] := by
  simp [proj, List.filterMap_map, h]

/-- A run of the interleaving is, index by index, a run of the system there. -/
theorem Run.proj [DecidableEq ι] {F : ι → System σ α ε} {τ : List (ι × ε)} {w : ι → σ}
    (h : (pi F).Run τ w) (i : ι) : (F i).Run (System.proj i τ) (w i) := by
  induction h with
  | start hw => exact .start (hw i)
  | @step τ w a w' es _ hn ih =>
      simp only [pi, Option.map_eq_some_iff, Prod.mk.injEq] at hn
      obtain ⟨⟨s', es'⟩, hn, rfl, rfl⟩ := hn
      have happ : System.proj i (τ ++ es'.map fun e => (a.1, e)) =
          System.proj i τ ++ System.proj i (es'.map fun e => (a.1, e)) := by
        simp [System.proj]
      rw [happ]
      by_cases hi : a.1 = i
      · subst hi
        rw [proj_map_self, Function.update_self]
        exact ih.step hn
      · rw [proj_map_ne hi, List.append_nil, Function.update_of_ne (Ne.symm hi)]
        exact ih

theorem Reachable.proj [DecidableEq ι] {F : ι → System σ α ε} {w : ι → σ}
    (h : (pi F).Reachable w) (i : ι) : (F i).Reachable (w i) := by
  obtain ⟨τ, hτ⟩ := h
  exact ⟨_, hτ.proj i⟩

end System

end Yfs.Lib
