import Yfs.Lib.System
import Yfs.Lock.Client

/-!
# The plain lock server

`lock_server` grants a lock by writing the id of the client into its record, and `release` writes -1.
A handler that finds the lock taken waits for the condition variable of the lock, and looks again
whenever it wakes up, for whatever reason.

The lock counts as taken if the id in the record is positive. So the server excludes all others while
a client has the lock, unless the id of the client is 0 (`plain_exclusive_iff`).
-/

namespace Yfs.Lock

open Yfs.Lib

/-! ## The handlers -/

/-- The loop in `lock_server::acquire`, as far as it does not wait: the new `client` of the record.
`none` says that the handler waits. -/
def plainTest (client clt : Int32) : Option Int32 := if client > 0 then none else some clt

/-- `lock_server::acquire` up to its first wait. -/
def plainAcquire (l : Option Int32) (clt : Int32) : Option Int32 :=
  match l with
  | none => some clt
  | some client => plainTest client clt

/-- `lock_server::release`. The id of the caller is only printed. -/
def plainRelease (l : Option Int32) : Option Int32 := l.map fun _ => -1

/-! ## All clients -/

/-- One lock: the `client` in its record, the handlers that wait for the condition variable, and how
many of its grants each client has not released yet. -/
structure PlainState (κ : Type) where
  lock : Option Int32
  waiting : κ × ThreadId → Bool
  held : κ → Nat

inductive PlainAction (κ : Type) where
  /-- The handler of an `acquire` call of client `c` starts, in thread `t` of the server. -/
  | acquire (c : κ) (t : ThreadId)
  /-- A handler that waits wakes up. -/
  | wake (c : κ) (t : ThreadId)
  /-- The handler of a `release` call of client `c`, which holds the lock. -/
  | release (c : κ)
  deriving DecidableEq, Repr

namespace PlainState

variable {κ : Type} [DecidableEq κ] (s : PlainState κ)

def initial : PlainState κ := { lock := none, waiting := fun _ => false, held := fun _ => 0 }

/-- What a handler of `acquire` does after it has looked at the lock: it waits, or it grants. -/
def leave (c : κ) (t : ThreadId) : Option Int32 → PlainState κ
  | none => { s with waiting := Function.update s.waiting (c, t) true }
  | some client =>
      { lock := some client
        waiting := Function.update s.waiting (c, t) false
        held := Function.update s.held c (s.held c + 1) }

/-- A step, where `ident c` is what `rpcc::id()` gives for client `c`. -/
def next (ident : κ → Int32) : PlainAction κ → Option (PlainState κ)
  | .acquire c t =>
      if s.waiting (c, t) then none else some (s.leave c t (plainAcquire s.lock (ident c)))
  | .wake c t =>
      if s.waiting (c, t) then s.lock.map fun client => s.leave c t (plainTest client (ident c))
      else none
  | .release c =>
      if s.held c = 0 then none
      else some { s with lock := plainRelease s.lock,
                         held := Function.update s.held c (s.held c - 1) }

end PlainState

section
variable {κ : Type} [DecidableEq κ]

/-- The handlers for one lock id. -/
def plainSystem (ident : κ → Int32) : System (PlainState κ) (PlainAction κ) Unit where
  init s := s = .initial
  next s a := (s.next ident a).map fun s' => (s', [])

/-- The handlers for all lock ids. -/
def plainWorld (ident : κ → Int32) :
    System (LockId → PlainState κ) (LockId × PlainAction κ) (LockId × Unit) :=
  .pi fun _ => plainSystem ident

/-! ## Ids that are not 0 -/

/-- The lock has a holder, and only one, and says so; or it has none. -/
def PlainState.Ok (ident : κ → Int32) (s : PlainState κ) : Prop :=
  (∃ c, s.lock = some (ident c) ∧ s.held = Function.update (fun _ => 0) c 1) ∨
    (s.lock = none ∨ s.lock = some (-1)) ∧ s.held = fun _ => 0

variable {ident : κ → Int32} {s s' : PlainState κ} {c : κ} {t : ThreadId}

/-- A handler that looks at the lock waits while there is a holder, and grants it otherwise. -/
theorem PlainState.Ok.leave (h : s.Ok ident) (hpos : ∀ c, ident c > 0) :
    (s.leave c t (plainAcquire s.lock (ident c))).Ok ident := by
  rcases h with ⟨c₀, hlock, hheld⟩ | ⟨hlock, hheld⟩
  · have hwait : plainAcquire s.lock (ident c) = none := by
      rw [hlock]
      exact if_pos (hpos c₀)
    rw [hwait]
    exact .inl ⟨c₀, hlock, hheld⟩
  · have hgrant : plainAcquire s.lock (ident c) = some (ident c) := by
      rcases hlock with hlock | hlock
      · rw [hlock]
        rfl
      · rw [hlock]
        show plainTest (-1) (ident c) = _
        unfold plainTest
        rw [if_neg (by decide)]
    rw [hgrant]
    refine .inl ⟨c, rfl, ?_⟩
    show Function.update s.held c (s.held c + 1) = _
    rw [hheld]

theorem PlainState.Ok.release (h : s.Ok ident) (hc : s.held c ≠ 0) :
    PlainState.Ok ident { s with lock := plainRelease s.lock,
                                 held := Function.update s.held c (s.held c - 1) } := by
  rcases h with ⟨c₀, hlock, hheld⟩ | ⟨-, hheld⟩
  · obtain rfl : c = c₀ := by
      by_contra hne
      rw [hheld, Function.update_of_ne hne] at hc
      exact hc rfl
    refine .inr ⟨.inr ?_, ?_⟩
    · show plainRelease s.lock = _
      rw [hlock]
      rfl
    · show Function.update s.held c (s.held c - 1) = _
      rw [hheld]
      simp
  · rw [hheld] at hc
    exact absurd rfl hc

theorem PlainState.Ok.next {a : PlainAction κ} (h : s.Ok ident) (hpos : ∀ c, ident c > 0)
    (hn : s.next ident a = some s') : s'.Ok ident := by
  cases a with
  | acquire c t =>
      simp only [PlainState.next] at hn
      split at hn
      · cases hn
      · cases hn
        exact h.leave hpos
  | wake c t =>
      simp only [PlainState.next] at hn
      split at hn
      · -- the test after a wait is the one before it
        obtain ⟨client, hlock, rfl⟩ := Option.map_eq_some_iff.mp hn
        have := h.leave (c := c) (t := t) hpos
        rwa [hlock] at this
      · cases hn
  | release c =>
      simp only [PlainState.next] at hn
      split at hn
      · cases hn
      · rename_i hc
        cases hn
        exact h.release hc

theorem PlainState.Ok.exclusive (h : s.Ok ident) {c c' : κ} (hc : 0 < s.held c)
    (hc' : 0 < s.held c') : c = c' := by
  rcases h with ⟨c₀, -, hheld⟩ | ⟨-, hheld⟩
  · have honly : ∀ d, 0 < s.held d → d = c₀ := by
      intro d hd
      by_contra hne
      rw [hheld, Function.update_of_ne hne] at hd
      exact absurd hd (by simp)
    rw [honly c hc, honly c' hc']
  · rw [hheld] at hc
    exact absurd hc (by simp)

theorem plain_ok (hpos : ∀ c, ident c > 0) (h : (plainSystem ident).Reachable s) : s.Ok ident := by
  apply h.invariant
  · intro s hs
    cases hs
    exact .inr ⟨.inl rfl, rfl⟩
  · intro s a s' es hok hn
    obtain ⟨s₁, hs₁, heq⟩ := Option.map_eq_some_iff.mp hn
    cases heq
    exact hok.next hpos hs₁

/-! ## The id 0 -/

/-- The record of a client with the id 0 does not keep another one out. -/
theorem zero_not_exclusive {c c' : κ} (hzero : ident c = 0) (hne : c' ≠ c) :
    ∃ w, (plainWorld ident).Reachable w ∧ 0 < (w 0).held c ∧ 0 < (w 0).held c' := by
  let s₁ : PlainState κ := PlainState.initial.leave c 0 (some 0)
  let s₂ : PlainState κ := s₁.leave c' 0 (some (ident c'))
  have hfirst : PlainState.initial.next ident (.acquire c 0) = some s₁ := by
    simp [PlainState.next, PlainState.initial, plainAcquire, hzero, s₁]
  have hsecond : s₁.next ident (.acquire c' 0) = some s₂ := by
    simp [PlainState.next, PlainState.initial, PlainState.leave, plainAcquire, plainTest, hne, s₁, s₂]
  have hexec : (plainWorld ident).exec (fun _ => .initial) [(0, .acquire c 0), (0, .acquire c' 0)] =
      some (Function.update (Function.update (fun _ => .initial) 0 s₁) 0 s₂, []) := by
    simp [System.exec, plainWorld, System.pi, plainSystem, hfirst, hsecond]
  refine ⟨_, ⟨_, (System.Run.start (fun _ => rfl)).exec hexec⟩, ?_, ?_⟩
  · simp [s₁, s₂, PlainState.leave, Function.update_of_ne (Ne.symm hne)]
  · simp [s₂, PlainState.leave]

/-- No lock is ever held by two clients at once, in any interleaving of the handlers, if and only if
no client that is not alone has the id 0. -/
theorem plain_exclusive_iff (hid : ∀ c, 0 ≤ ident c) :
    (∀ w, (plainWorld ident).Reachable w → ∀ lid c c', 0 < (w lid).held c → 0 < (w lid).held c' →
      c = c') ↔ ∀ c, ident c = 0 → ∀ c', c' = c := by
  constructor
  · intro hexcl c hzero c'
    by_contra hne
    obtain ⟨w, hw, hc, hc'⟩ := zero_not_exclusive hzero hne
    exact hne (hexcl w hw 0 c' c hc' hc)
  · intro hzero w hw lid c c' hc hc'
    by_cases hpos : ∀ c, ident c > 0
    · exact (plain_ok hpos (hw.proj lid)).exclusive hc hc'
    · -- a client with the id 0 is the only one
      obtain ⟨c₀, hc₀⟩ := not_forall.mp hpos
      have hc₀ : ident c₀ = 0 := Int32.le_antisymm (Int32.not_lt.mp hc₀) (hid c₀)
      rw [hzero c₀ hc₀ c, hzero c₀ hc₀ c']

end

/-- Clients with the ids 3 and 5: while the first one has the lock, the second one waits. -/
theorem plain_exclusive_wait :
    ∃ w, (plainWorld fun c : Bool => if c then 3 else 5).Reachable w ∧ (w 7).waiting (false, 1) = true ∧
      0 < (w 7).held true ∧ ¬ 0 < (w 7).held false := by
  obtain ⟨w, hw, hwait, hheld⟩ := System.exists_reachable
    (S := plainWorld fun c : Bool => if c then 3 else 5) (s := fun _ => .initial)
    (p := fun w => (w 7).waiting (false, 1) = true ∧ 0 < (w 7).held true)
    [(7, .acquire true 0), (7, .acquire false 1), (7, .wake false 1)] (fun _ => rfl) (by decide)
  have hid : ∀ c : Bool, (0 : Int32) ≤ if c then 3 else 5 := by decide
  have hexcl := (plain_exclusive_iff hid).mpr (by decide)
  exact ⟨w, hw, hwait, hheld, fun h => absurd (hexcl w hw 7 true false hheld h) (by decide)⟩

/-- Clients with the ids 0 and 5 hold the lock at the same time. -/
theorem plain_two_holders :
    ∃ w, (plainWorld fun c : Bool => if c then 0 else 5).Reachable w ∧ 0 < (w 7).held true ∧
      0 < (w 7).held false :=
  System.exists_reachable (S := plainWorld fun c : Bool => if c then 0 else 5) (s := fun _ => .initial)
    (p := fun w => 0 < (w 7).held true ∧ 0 < (w 7).held false)
    [(7, .acquire true 0), (7, .acquire false 1)] (fun _ => rfl) (by decide)

end Yfs.Lock
