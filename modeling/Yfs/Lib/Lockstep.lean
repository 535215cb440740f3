import Mathlib.Logic.Basic

/-!
# Two machines in lockstep

A machine takes calls and answers each one, or stops. `answers` is what a sequence of calls gets from
it. Two machines that are related by a third one, which only keeps track of what was called, give the
same answers exactly if each call meets a state of the third in which they agree (`answers_eq_iff`).
-/

namespace Yfs.Lib

variable {σ τ ω α β : Type}

/-- The answers to calls; after a call that stops the machine there are none. -/
def answers (f : σ → α → Option (σ × β)) : σ → List α → List (Option β)
  | _, [] => []
  | s, a :: as =>
      match f s a with
      | none => [none]
      | some (s, b) => some b :: answers f s as

/-- Each call has the property `P` of the state it meets. -/
def Along (step : ω → α → ω) (P : ω → α → Prop) : ω → List α → Prop
  | _, [] => True
  | w, a :: as => P w a ∧ Along step P (step w a) as

/-- Related machines: where `P` holds of a call they answer the same and stay related, and elsewhere
they do not answer the same. -/
structure Lockstep (f : σ → α → Option (σ × β)) (g : τ → α → Option (τ × β)) (step : ω → α → ω)
    (P : ω → α → Prop) (R : ω → σ → τ → Prop) : Prop where
  agree : ∀ {w s t a}, R w s t → P w a →
    ∃ s' t' b, f s a = some (s', b) ∧ g t a = some (t', b) ∧ R (step w a) s' t'
  differ : ∀ {w s t a}, R w s t → ¬ P w a → (f s a).map Prod.snd ≠ (g t a).map Prod.snd

variable {f : σ → α → Option (σ × β)} {g : τ → α → Option (τ × β)} {step : ω → α → ω}
  {P : ω → α → Prop} {R : ω → σ → τ → Prop}

theorem head_answers (s : σ) (a : α) (as : List α) :
    (answers f s (a :: as)).head? = some ((f s a).map Prod.snd) := by
  rw [answers]
  cases f s a with
  | none => rfl
  | some r => rfl

theorem Lockstep.answers_eq_iff (h : Lockstep f g step P R) {w : ω} {s : σ} {t : τ} (hr : R w s t)
    (as : List α) : answers f s as = answers g t as ↔ Along step P w as := by
  induction as generalizing w s t with
  | nil => simp [answers, Along]
  | cons a as ih =>
      by_cases hp : P w a
      · obtain ⟨s', t', b, hf, hg, hr'⟩ := h.agree hr hp
        simp only [answers, hf, hg, Along, hp, true_and, List.cons.injEq]
        exact ih hr'
      · constructor
        · intro heq
          have hhead := congrArg List.head? heq
          rw [head_answers, head_answers] at hhead
          exact absurd (Option.some.inj hhead) (h.differ hr hp)
        · intro halong
          exact absurd halong.1 hp

end Yfs.Lib
