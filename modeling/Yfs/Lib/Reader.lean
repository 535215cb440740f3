import Mathlib.Data.List.Basic

/-!
# Readers of length-prefixed formats

A `Reader` takes a value from the front of a list and hands back the rest, or fails. Two laws relate a
reader to an encoding. `ReadsBack`: the encoding of a value is read back, whatever comes after it (as
long as the whole does not exceed a bound that the reader may depend on). `Sound`: what is read is the
encoding of the value. Both go through sequencing (`ReadsBack.bind`, `Reader.bind_eq_ok`) and through
reading `n` values (`timesM`). A loop that reads `n` values and puts each one into a collection
(`intoM`) reads the same `n` values (`intoM_eq`).
-/

namespace Yfs.Lib

variable {ε β α γ : Type}

/-- Do `f`, then `g`. -/
def pairM {m : Type → Type} [Monad m] (f : m α) (g : m γ) : m (α × γ) := do
  let x ← f
  let y ← g
  return (x, y)

/-- Do `f` `n` times. -/
def timesM {m : Type → Type} [Monad m] (f : m α) : Nat → m (List α)
  | 0 => pure []
  | n + 1 => do
      let x ← f
      let l ← timesM f n
      return x :: l

/-- Do `f` `n` times and put each result into `b`. -/
def intoM {m : Type → Type} [Monad m] (f : m α) (put : γ → α → γ) : Nat → γ → m γ
  | 0, b => pure b
  | n + 1, b => do
      let x ← f
      intoM f put n (put b x)

theorem intoM_eq {m : Type → Type} [Monad m] [LawfulMonad m] (f : m α) (put : γ → α → γ) (n : Nat)
    (b : γ) : intoM f put n b = (fun l => l.foldl put b) <$> timesM f n := by
  induction n generalizing b with
  | zero => simp [intoM, timesM]
  | succ n ih => simp [intoM, timesM, ih]

abbrev Reader (ε β : Type) := StateT (List β) (Except ε)

variable {f : Reader ε β α} {g : α → Reader ε β γ} {bs bs' rest : List β} {x : α} {y : γ} {sz : Nat}
  {enc : α → List β}

/-- Where a sequence of two readers stops. -/
theorem Reader.bind_eq_ok : (f >>= g) bs = .ok (y, rest) ↔
    ∃ x r, f bs = .ok (x, r) ∧ g x r = .ok (y, rest) := by
  change (f bs >>= fun r => g r.1 r.2) = _ ↔ _
  cases f bs with
  | error e => simp [Bind.bind, Except.bind]
  | ok r =>
      constructor
      · intro h
        exact ⟨r.1, r.2, rfl, h⟩
      · rintro ⟨x, s, hr, h⟩
        cases hr
        exact h

/-! ## Encodings are read back -/

/-- `f` reads `x` from `bs`, in a list of up to `sz` elements. -/
def ReadsBack (sz : Nat) (f : Reader ε β α) (bs : List β) (x : α) : Prop :=
  ∀ rest, (bs ++ rest).length ≤ sz → f (bs ++ rest) = .ok (x, rest)

theorem readsBack_pure : ReadsBack sz (pure x : Reader ε β α) [] x := fun _ _ => rfl

theorem ReadsBack.bind (hf : ReadsBack sz f bs x) (hg : ReadsBack sz (g x) bs' y) :
    ReadsBack sz (f >>= g) (bs ++ bs') y := by
  intro rest hlen
  rw [List.append_assoc] at hlen ⊢
  refine Reader.bind_eq_ok.mpr ⟨x, bs' ++ rest, hf _ hlen, hg rest ?_⟩
  simp only [List.length_append] at hlen ⊢
  omega

theorem ReadsBack.map (h : α → γ) (hf : ReadsBack sz f bs x) :
    ReadsBack sz (f >>= fun x => pure (h x)) bs (h x) := by
  simpa using hf.bind (g := fun x => pure (h x)) readsBack_pure

theorem ReadsBack.pairM {g : Reader ε β γ} (hf : ReadsBack sz f bs x) (hg : ReadsBack sz g bs' y) :
    ReadsBack sz (pairM f g) (bs ++ bs') (x, y) :=
  hf.bind (hg.map fun y => (x, y))

theorem readsBack_timesM (h : ∀ x, ReadsBack sz f (enc x) x) (l : List α) :
    ReadsBack sz (timesM f l.length) (l.flatMap enc) l := by
  induction l with
  | nil => exact readsBack_pure
  | cons x l ih => exact (h x).bind (ih.map (x :: ·))

/-! ## Nothing else is read -/

/-- What `f` reads is the encoding of the value it gives. -/
def Sound (f : Reader ε β α) (enc : α → List β) : Prop :=
  ∀ bs x rest, f bs = .ok (x, rest) → bs = enc x ++ rest

theorem Sound.timesM (hf : Sound f enc) {n : Nat} {l : List α}
    (h : Lib.timesM f n bs = .ok (l, rest)) : l.length = n ∧ bs = l.flatMap enc ++ rest := by
  induction n generalizing bs l with
  | zero =>
      cases h
      exact ⟨rfl, rfl⟩
  | succ n ih =>
      obtain ⟨x, r, hx, h⟩ := Reader.bind_eq_ok.mp h
      obtain ⟨l', r', hl, h⟩ := Reader.bind_eq_ok.mp h
      cases h
      obtain ⟨hn, hr⟩ := ih hl
      refine ⟨by simp [hn], ?_⟩
      rw [hf _ _ _ hx, hr]
      simp

end Yfs.Lib
