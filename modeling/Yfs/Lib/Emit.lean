import Mathlib.Data.Option.Basic

/-!
# Computations that emit

An `Emit` computation works on a state, may fail to return (`none`), and emits values on the way.
`Emits n` says that it has emitted `n` values when it returns, and `Returns` that it returns from
every state. The rules below follow the program text.
-/

namespace Yfs.Lib

/-- A computation over states `σ` that emits values of type `ε`. -/
def Emit (σ ε α : Type) : Type := σ → Option (α × σ × List ε)

namespace Emit

variable {σ ε α β : Type}

/-- One computation, and then another one on its result. -/
def andThen (x : Emit σ ε α) (f : α → Emit σ ε β) : Emit σ ε β := fun s => do
  let (a, s, es) ← x s
  let (b, s, es') ← f a s
  return (b, s, es ++ es')

instance : Monad (Emit σ ε) where
  pure a s := some (a, s, [])
  bind := andThen

def emit (e : ε) : Emit σ ε Unit := fun s => some ((), s, [e])

/-- A call, which emits nothing itself. -/
def call (f : σ → Option (σ × α)) : Emit σ ε α := fun s => (f s).map fun r => (r.2, r.1, [])

/-- What comes after a computation that has returned. -/
theorem bind_of_eq {x : Emit σ ε α} {f : α → Emit σ ε β} {s s' : σ} {a : α} {es : List ε}
    (h : x s = some (a, s', es)) :
    (x >>= f) s = (f a s').map fun r => (r.1, r.2.1, es ++ r.2.2) := by
  show andThen x f s = _
  rw [andThen, h, Option.map_eq_bind]
  rfl

theorem bind_eq_some {x : Emit σ ε α} {f : α → Emit σ ε β} {s s'' : σ} {b : β} {es : List ε} :
    (x >>= f) s = some (b, s'', es) ↔ ∃ a s' es₁ es₂, x s = some (a, s', es₁) ∧
      f a s' = some (b, s'', es₂) ∧ es = es₁ ++ es₂ := by
  show andThen x f s = _ ↔ _
  simp only [andThen, Option.bind_eq_bind, Option.pure_def, Option.bind_eq_some_iff, Option.some.injEq,
    Prod.exists, Prod.mk.injEq]
  constructor
  · rintro ⟨a, s', es₁, hx, b', s₂, es₂, hf, rfl, rfl, rfl⟩
    exact ⟨a, s', es₁, es₂, hx, hf, rfl⟩
  · rintro ⟨a, s', es₁, es₂, hx, hf, rfl⟩
    exact ⟨a, s', es₁, hx, b, s'', es₂, hf, rfl, rfl, rfl⟩

/-! ## How often -/

/-- It has emitted `n` values when it returns. -/
def Emits (n : Nat) (x : Emit σ ε α) : Prop := ∀ s a s' es, x s = some (a, s', es) → es.length = n

theorem emits_pure (a : α) : Emits 0 (pure a : Emit σ ε α) := by
  rintro s _ _ _ ⟨⟩
  rfl

theorem emits_emit (e : ε) : Emits 1 (emit e : Emit σ ε Unit) := by
  rintro s _ _ _ ⟨⟩
  rfl

theorem emits_call (f : σ → Option (σ × α)) : Emits 0 (call f : Emit σ ε α) := by
  intro s a s' es h
  obtain ⟨r, -, heq⟩ := Option.map_eq_some_iff.mp h
  cases heq
  rfl

theorem Emits.bind {m n : Nat} {x : Emit σ ε α} {f : α → Emit σ ε β} (hx : Emits m x)
    (hf : ∀ a, Emits n (f a)) : Emits (m + n) (x >>= f) := by
  intro s b s'' es h
  obtain ⟨a, s', es₁, es₂, h₁, h₂, rfl⟩ := bind_eq_some.mp h
  rw [List.length_append, hx s a s' es₁ h₁, hf a s' b s'' es₂ h₂]

/-- After something that emits nothing. -/
theorem Emits.after {n : Nat} {x : Emit σ ε α} {f : α → Emit σ ε β} (hx : Emits 0 x)
    (hf : ∀ a, Emits n (f a)) : Emits n (x >>= f) := by
  have h := hx.bind hf
  rwa [Nat.zero_add] at h

theorem Emits.ite {n : Nat} {p : Prop} [Decidable p] {x y : Emit σ ε α} (hx : Emits n x)
    (hy : Emits n y) : Emits n (if p then x else y) := by
  split
  · exact hx
  · exact hy

/-! ## Whether it returns -/

/-- It returns from every state. -/
def Returns (x : Emit σ ε α) : Prop := ∀ s, ∃ r, x s = some r

theorem returns_pure (a : α) : Returns (pure a : Emit σ ε α) := fun s => ⟨(a, s, []), rfl⟩

theorem returns_emit (e : ε) : Returns (emit e : Emit σ ε Unit) := fun s => ⟨((), s, [e]), rfl⟩

theorem returns_call {f : σ → Option (σ × α)} (h : ∀ s, ∃ r, f s = some r) :
    Returns (call f : Emit σ ε α) := by
  intro s
  obtain ⟨r, hr⟩ := h s
  exact ⟨(r.2, r.1, []), by rw [call, hr]; rfl⟩

theorem Returns.bind {x : Emit σ ε α} {f : α → Emit σ ε β} (hx : Returns x) (hf : ∀ a, Returns (f a)) :
    Returns (x >>= f) := by
  intro s
  obtain ⟨⟨a, s', es₁⟩, h₁⟩ := hx s
  obtain ⟨⟨b, s'', es₂⟩, h₂⟩ := hf a s'
  exact ⟨_, bind_eq_some.mpr ⟨a, s', es₁, es₂, h₁, h₂, rfl⟩⟩

theorem Returns.ite {p : Prop} [Decidable p] {x y : Emit σ ε α} (hx : Returns x) (hy : Returns y) :
    Returns (if p then x else y) := by
  split
  · exact hx
  · exact hy

end Emit

end Yfs.Lib
