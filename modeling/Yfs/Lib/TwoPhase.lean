import Yfs.Lib.System

/-!
# Two-phase locking

Threads run transactions on a store of values in which each key has a lock. A transaction acquires
locks, reads and writes keys that it has locked, and gives its locks back; it is two-phase if it
takes no lock, reads nothing and writes nothing once it has given one back (`Txn.Growing`).

In `lockedSystem` the threads take turns request by request. In `atomicSystem` a transaction runs at
once, at some moment between its call and its return. `exists_sim`: if the transactions are
two-phase, then whatever is seen of the first system can be seen of the second, call by call and
return by return. The moment is the first release, when the transaction has all the locks it will
ever have. Until then what it has read is still there, and what it has written nobody has read; so
the run of the transaction on the store as it was, and what remains of it on the store as it is, come
to the same (`Follows.growing`).
-/

namespace Yfs.Lib

open Function

/-- A transaction that returns a `ρ`, as a program of requests. -/
inductive Txn (K V ρ : Type) where
  | ret (r : ρ)
  /-- It never returns. -/
  | fail
  | acquire (k : K) (next : Txn K V ρ)
  | release (k : K) (next : Txn K V ρ)
  | read (k : K) (next : V → Txn K V ρ)
  | write (k : K) (v : V) (next : Txn K V ρ)

namespace Txn

variable {K V ρ : Type} [DecidableEq K]

/-- What a transaction that holds the locks `H` makes of the store when it is alone. It waits for
ever for a lock that it holds. -/
def run : (K → Bool) → (K → V) → Txn K V ρ → Option (ρ × (K → V))
  | _, m, ret r => some (r, m)
  | _, _, fail => none
  | H, m, acquire k p => if H k then none else run (update H k true) m p
  | H, m, release k p => run (update H k false) m p
  | H, m, read k f => run H m (f (m k))
  | H, m, write k v p => run H (update m k v) p

/-- All that remains is to give back the locks `H` and to return `r`. -/
def Unwinds (r : ρ) : (K → Bool) → Txn K V ρ → Prop
  | H, ret r' => r' = r ∧ ∀ k, H k = false
  | H, release k p => H k = true ∧ Unwinds r (update H k false) p
  | _, _ => False

/-- A two-phase transaction that has given no lock back and holds the locks `H`. -/
def Growing : (K → Bool) → Txn K V ρ → Prop
  | H, ret _ => ∀ k, H k = false
  | _, fail => True
  | H, acquire k p => H k = false → Growing (update H k true) p
  | H, release k p => ∃ r, Unwinds r H (release k p)
  | H, read k f => H k = true ∧ ∀ v, Growing H (f v)
  | H, write k _ p => H k = true ∧ Growing H p

/-- It takes no more locks, and writes what `W` allows only. -/
def Flat (W : K → V → Prop) : Txn K V ρ → Prop
  | ret _ | fail => True
  | acquire .. => False
  | release _ p => Flat W p
  | read _ f => ∀ v, Flat W (f v)
  | write k v p => W k v ∧ Flat W p

variable {H : K → Bool} {p : Txn K V ρ} {r : ρ}

omit [DecidableEq K] in
theorem Flat.mono {W W' : K → V → Prop} (h : p.Flat W) (hW : ∀ k v, W k v → W' k v) :
    p.Flat W' := by
  induction p with
  | ret | fail => trivial
  | acquire => exact h.elim
  | release k p ih => exact ih h
  | read k f ih => exact fun v => ih v (h v)
  | write k v p ih => exact ⟨hW k v h.1, ih h.2⟩

theorem Unwinds.run (h : Unwinds r H p) (m : K → V) : p.run H m = some (r, m) := by
  induction p generalizing H with
  | ret r' =>
      obtain ⟨rfl, -⟩ := h
      rfl
  | release k p ih => exact ih h.2
  | fail | acquire | read | write => exact h.elim

end Txn

/-! ## The two systems -/

inductive TxnEvent (T C ρ : Type) where
  | called (t : T) (c : C)
  | returned (t : T) (c : C) (r : ρ)
  deriving DecidableEq, Repr

inductive TxnAction (T C : Type) where
  | call (t : T) (c : C)
  /-- Thread `t` goes on. -/
  | step (t : T)
  deriving DecidableEq, Repr

section

variable {T K V C ρ : Type} [DecidableEq T] [DecidableEq K]

/-- The store, who holds the locks, and what remains to be done of each call. -/
structure Locked (T K V C ρ : Type) where
  store : K → V
  holder : K → Option T
  thread : T → Option (C × Txn K V ρ)

namespace Locked

variable (s : Locked T K V C ρ)

/-- The locks of a thread. -/
def held (t : T) (k : K) : Bool := s.holder k = some t

def goOn (t : T) (c : C) (p : Txn K V ρ) : Locked T K V C ρ :=
  { s with thread := update s.thread t (some (c, p)) }

/-- Thread `t` makes the next request of the call `c`. -/
def request (t : T) (c : C) : Txn K V ρ → Option (Locked T K V C ρ × List (TxnEvent T C ρ))
  | .ret r => some ({ s with thread := update s.thread t none }, [.returned t c r])
  | .fail => none
  | .acquire k p =>
      if s.holder k = none then
        some ({ s with holder := update s.holder k (some t) }.goOn t c p, [])
      else none
  | .release k p =>
      if s.holder k = some t then
        some ({ s with holder := update s.holder k none }.goOn t c p, [])
      else none
  | .read k f => some (s.goOn t c (f (s.store k)), [])
  | .write k v p => some ({ s with store := update s.store k v }.goOn t c p, [])

end Locked

/-- The requests of all threads are interleaved; the transaction of a call is given by `prog`. -/
def lockedSystem (prog : C → Txn K V ρ) (m : K → V) :
    System (Locked T K V C ρ) (TxnAction T C) (TxnEvent T C ρ) where
  init s := s = { store := m, holder := fun _ => none, thread := fun _ => none }
  next s
    | .call t c =>
        match s.thread t with
        | none => some (s.goOn t c (prog c), [.called t c])
        | some _ => none
    | .step t =>
        match s.thread t with
        | none => none
        | some (c, p) => s.request t c p

/-- The store, and the calls that have not returned, with the result of those that have run. -/
structure Atomic (T K V C ρ : Type) where
  store : K → V
  thread : T → Option (C × Option ρ)

/-- A call runs at once: `exec` gives its result and the new store. -/
def atomicSystem (exec : C → (K → V) → Option (ρ × (K → V))) (m : K → V) :
    System (Atomic T K V C ρ) (TxnAction T C) (TxnEvent T C ρ) where
  init s := s = { store := m, thread := fun _ => none }
  next s
    | .call t c =>
        match s.thread t with
        | none => some ({ s with thread := update s.thread t (some (c, none)) }, [.called t c])
        | some _ => none
    | .step t =>
        match s.thread t with
        | none => none
        | some (c, none) =>
            (exec c s.store).map fun (r, m) =>
              ({ store := m, thread := update s.thread t (some (c, some r)) }, [])
        | some (c, some r) =>
            some ({ s with thread := update s.thread t none }, [.returned t c r])

/-! ## The simulation -/

/-- The store `m`, with the keys that `H` has locked as they are in `st`. -/
def overlay (H : K → Bool) (st m : K → V) (k : K) : V := if H k then st k else m k

variable {prog : C → Txn K V ρ} {H : K → Bool} {st st' m m' : K → V} {p : Txn K V ρ} {r : ρ}
  {c : C} {k : K} {t u : T}

/-- Where a thread is in the system with locks, with the store `st`, and where it is in the atomic
one, with the store `m`. -/
inductive Follows (prog : C → Txn K V ρ) (H : K → Bool) (st m : K → V) :
    Option (C × Txn K V ρ) → Option (C × Option ρ) → Prop where
  | idle : (∀ k, H k = false) → Follows prog H st m none none
  /-- The call has not run yet. Wherever it starts from, if its keys were as they are in `m`, then it
  comes from the beginning to where it comes now. -/
  | growing {c : C} {p : Txn K V ρ} : p.Growing H → (∀ m', (∀ k, H k = true → m' k = m k) →
      (prog c).run (fun _ => false) m' = p.run H (overlay H st m')) →
      Follows prog H st m (some (c, p)) (some (c, none))
  | unwinding {c : C} {p : Txn K V ρ} {r : ρ} : p.Unwinds r H →
      Follows prog H st m (some (c, p)) (some (c, some r))

omit [DecidableEq T] in
/-- Others leave the keys of a thread alone. -/
theorem Follows.frame {x : Option (C × Txn K V ρ)} {y : Option (C × Option ρ)}
    (h : Follows prog H st m x y) (hst : ∀ k, H k = true → st' k = st k)
    (hm : ∀ k, H k = true → m' k = m k) : Follows prog H st' m' x y := by
  cases h with
  | idle hH => exact .idle hH
  | unwinding hp => exact .unwinding hp
  | growing hp hrun =>
      refine .growing hp fun m₀ hm₀ => ?_
      have hov : overlay H st' m₀ = overlay H st m₀ := by
        funext k
        unfold overlay
        split
        · exact hst k ‹_›
        · rfl
      rw [hov]
      exact hrun m₀ fun k hk => (hm₀ k hk).trans (hm k hk)

/-- The two systems are in step: what is not locked by a call that has not run is the same. -/
structure Sim (prog : C → Txn K V ρ) (s : Locked T K V C ρ) (a : Atomic T K V C ρ) : Prop where
  thread : ∀ t, Follows prog (s.held t) s.store a.store (s.thread t) (a.thread t)
  store : ∀ k, (∀ t c, s.holder k = some t → a.thread t ≠ some (c, none)) → s.store k = a.store k

section

variable {s s' : Locked T K V C ρ} {a : Atomic T K V C ρ}

theorem held_acquire (t : T) (hk : s.holder k = none) :
    Locked.held { s with holder := update s.holder k (some t) } t = update (s.held t) k true ∧
      ∀ u, u ≠ t → Locked.held { s with holder := update s.holder k (some t) } u = s.held u := by
  refine ⟨?_, fun u hu => ?_⟩ <;> funext j <;> by_cases hj : j = k <;>
    simp [Locked.held, hj, hk]
  exact fun h => hu h.symm

theorem held_release (hk : s.holder k = some t) :
    Locked.held { s with holder := update s.holder k none } t = update (s.held t) k false ∧
      ∀ u, u ≠ t → Locked.held { s with holder := update s.holder k none } u = s.held u := by
  refine ⟨?_, fun u hu => ?_⟩ <;> funext j <;> by_cases hj : j = k <;>
    simp [Locked.held, hj, hk]
  exact fun h => hu h.symm

/-- Only thread `t` moves. -/
theorem Sim.of_move {a' : Atomic T K V C ρ} (h : Sim prog s a)
    (hheld : ∀ u, u ≠ t → s'.held u = s.held u)
    (hthread : ∀ u, u ≠ t → s'.thread u = s.thread u ∧ a'.thread u = a.thread u)
    (hstore : ∀ u, u ≠ t → ∀ k, s.held u k = true → s'.store k = s.store k ∧ a'.store k = a.store k)
    (ht : Follows prog (s'.held t) s'.store a'.store (s'.thread t) (a'.thread t))
    (hk : ∀ k, (∀ u c, s'.holder k = some u → a'.thread u ≠ some (c, none)) →
      s'.store k = a'.store k) : Sim prog s' a' := by
  refine ⟨fun u => ?_, hk⟩
  by_cases hu : u = t
  · exact hu ▸ ht
  · rw [hheld u hu, (hthread u hu).1, (hthread u hu).2]
    exact (h.thread u).frame (fun k hk => (hstore u hu k hk).1) fun k hk => (hstore u hu k hk).2

omit [DecidableEq T] [DecidableEq K] in
theorem overlay_of_false (hH : ∀ k, H k = false) : overlay H st m = m := by
  funext k
  simp [overlay, hH k]

omit [DecidableEq K] in
/-- A key that is locked by one thread is not locked by another. -/
theorem held_unique (ht : s.held t k = true) (hu : s.held u k = true) : u = t := by
  simp only [Locked.held, decide_eq_true_eq] at ht hu
  exact Option.some.inj (hu.symm.trans ht)

variable {exec : C → (K → V) → Option (ρ × (K → V))} {m₀ : K → V} {es : List (TxnEvent T C ρ)}

/-- The atomic system can follow to `s'`. -/
def CanFollow (prog : C → Txn K V ρ) (exec : C → (K → V) → Option (ρ × (K → V))) (m₀ : K → V)
    (a : Atomic T K V C ρ) (s' : Locked T K V C ρ) (es : List (TxnEvent T C ρ)) : Prop :=
  ∃ as a', (atomicSystem exec m₀).exec a as = some (a', es) ∧ Sim prog s' a'

/-- The atomic system does nothing. -/
theorem CanFollow.stay (h : Sim prog s' a) : CanFollow prog exec m₀ a s' [] := ⟨[], a, rfl, h⟩

/-- The locks and the store stay as they are, and thread `t` goes on at a place that comes to the
same. -/
theorem Sim.goOn (h : Sim prog s a) (hat : a.thread t = some (c, none)) (hp : p.Growing (s.held t))
    (hrun : ∀ m', (∀ k, s.held t k = true → m' k = a.store k) →
      (prog c).run (fun _ => false) m' = p.run (s.held t) (overlay (s.held t) s.store m')) :
    Sim prog (s.goOn t c p) a := by
  refine h.of_move (t := t) (fun _ _ => rfl) (fun u hu => ⟨update_of_ne hu _ _, rfl⟩)
    (fun _ _ _ _ => ⟨rfl, rfl⟩) ?_ h.store
  show Follows prog (s.held t) s.store a.store (update s.thread t (some (c, p)) t) (a.thread t)
  rw [update_self, hat]
  exact .growing hp hrun

/-- A lock is taken. What it protects is as the atomic system has it. -/
theorem Sim.acquire (h : Sim prog s a) (hat : a.thread t = some (c, none))
    (hp : (Txn.acquire k p).Growing (s.held t))
    (hrun : ∀ m', (∀ k, s.held t k = true → m' k = a.store k) → (prog c).run (fun _ => false) m' =
      (Txn.acquire k p).run (s.held t) (overlay (s.held t) s.store m'))
    (hk : s.holder k = none) :
    Sim prog ({ s with holder := update s.holder k (some t) }.goOn t c p) a := by
  obtain ⟨hheld, hother⟩ := held_acquire t hk
  have hfree : s.held t k = false := by simp [Locked.held, hk]
  refine h.of_move (t := t) hother (fun u hu => ⟨update_of_ne hu _ _, rfl⟩)
    (fun _ _ _ _ => ⟨rfl, rfl⟩) ?_ fun j hj => h.store j fun u c' hu => ?_
  · show Follows prog (Locked.held { s with holder := update s.holder k (some t) } t) s.store a.store
      (update s.thread t (some (c, p)) t) (a.thread t)
    rw [hheld, update_self, hat]
    refine .growing (hp hfree) fun m' hm' => ?_
    have hov : overlay (update (s.held t) k true) s.store m' = overlay (s.held t) s.store m' := by
      funext j
      by_cases hj : j = k
      · subst hj
        have hmj : m' j = a.store j := hm' j (update_self ..)
        simp [overlay, hfree, hmj, h.store j (by simp [hk])]
      · simp [overlay, hj]
    rw [hov, hrun m' fun j hj => hm' j ?_, Txn.run, hfree]
    · rfl
    · by_cases hjk : j = k
      · rw [hjk, update_self]
      · rw [update_of_ne hjk]
        exact hj
  · refine hj u c' ?_
    have hjk : j ≠ k := by
      rintro rfl
      rw [hk] at hu
      cases hu
    exact (update_of_ne hjk _ _).trans hu

/-- A key is written. Nobody else has it locked. -/
theorem Sim.write {v : V} (h : Sim prog s a) (hat : a.thread t = some (c, none))
    (hp : (Txn.write k v p).Growing (s.held t))
    (hrun : ∀ m', (∀ k, s.held t k = true → m' k = a.store k) → (prog c).run (fun _ => false) m' =
      (Txn.write k v p).run (s.held t) (overlay (s.held t) s.store m')) :
    Sim prog ({ s with store := update s.store k v }.goOn t c p) a := by
  obtain ⟨hk, hp⟩ := hp
  refine h.of_move (t := t) (fun _ _ => rfl) (fun u hu => ⟨update_of_ne hu _ _, rfl⟩)
    (fun u hu j hj => ⟨update_of_ne ?_ _ _, rfl⟩) ?_ fun j hj => ?_
  · rintro rfl
    exact hu (held_unique hk hj)
  · show Follows prog (s.held t) (update s.store k v) a.store (update s.thread t (some (c, p)) t)
      (a.thread t)
    rw [update_self, hat]
    refine .growing hp fun m' hm' => ?_
    rw [hrun m' hm', Txn.run]
    congr 1
    funext j
    by_cases hj : j = k
    · subst hj
      simp [overlay, hk]
    · simp [overlay, hj]
  · -- the key is locked by a call that has not run
    have hkt : s.holder k = some t := by simpa [Locked.held] using hk
    have hjk : j ≠ k := by
      rintro rfl
      exact hj t c hkt hat
    show update s.store k v j = a.store j
    rw [update_of_ne hjk]
    exact h.store j hj

/-- The first lock is given back: now the call runs in the atomic system. -/
theorem Sim.commit (h : Sim prog s a) (hat : a.thread t = some (c, none)) {r : ρ}
    (hp : (Txn.release k p).Unwinds r (s.held t)) :
    Sim prog ({ s with holder := update s.holder k none }.goOn t c p)
      { store := overlay (s.held t) s.store a.store,
        thread := update a.thread t (some (c, some r)) } := by
  obtain ⟨hk, hp⟩ := hp
  have hkt : s.holder k = some t := by simpa [Locked.held] using hk
  obtain ⟨hheld, hother⟩ := held_release hkt
  refine h.of_move (t := t) hother (fun u hu => ⟨update_of_ne hu _ _, update_of_ne hu _ _⟩)
    (fun u hu j hj => ⟨rfl, ?_⟩) ?_ fun j hj => ?_
  · refine if_neg fun htj => hu (held_unique htj hj)
  · show Follows prog (Locked.held { s with holder := update s.holder k none } t) s.store _
      (update s.thread t (some (c, p)) t) (update a.thread t (some (c, some r)) t)
    rw [hheld, update_self, update_self]
    exact .unwinding hp
  · by_cases htj : s.held t j = true
    · exact (if_pos htj).symm
    · refine (h.store j fun u c' hu hau => ?_).trans (if_neg htj).symm
      have hut : u ≠ t := by
        rintro rfl
        exact htj (by simpa [Locked.held] using hu)
      have hjk : j ≠ k := by
        rintro rfl
        exact htj hk
      exact hj u c' ((update_of_ne hjk _ _).trans hu) ((update_of_ne hut _ _).trans hau)

/-- A call that has run gives a lock back. -/
theorem Sim.release {r : ρ} (h : Sim prog s a) (hat : a.thread t = some (c, some r))
    (hp : (Txn.release k p).Unwinds r (s.held t)) :
    Sim prog ({ s with holder := update s.holder k none }.goOn t c p) a := by
  obtain ⟨hk, hp⟩ := hp
  have hkt : s.holder k = some t := by simpa [Locked.held] using hk
  obtain ⟨hheld, hother⟩ := held_release hkt
  refine h.of_move (t := t) hother (fun u hu => ⟨update_of_ne hu _ _, rfl⟩)
    (fun _ _ _ _ => ⟨rfl, rfl⟩) ?_ fun j hj => h.store j fun u c' hu hau => ?_
  · show Follows prog (Locked.held { s with holder := update s.holder k none } t) s.store a.store
      (update s.thread t (some (c, p)) t) (a.thread t)
    rw [hheld, update_self, hat]
    exact .unwinding hp
  · by_cases hjk : j = k
    · subst hjk
      rw [hkt] at hu
      cases hu
      rw [hat] at hau
      cases hau
    · exact hj u c' ((update_of_ne hjk _ _).trans hu) hau

/-- A call that has no locks returns. -/
theorem Sim.returns (h : Sim prog s a) (hfree : ∀ k, s.held t k = false) :
    Sim prog { s with thread := update s.thread t none }
      { a with thread := update a.thread t none } := by
  refine h.of_move (t := t) (fun _ _ => rfl) (fun u hu => ⟨update_of_ne hu _ _, update_of_ne hu _ _⟩)
    (fun _ _ _ _ => ⟨rfl, rfl⟩) ?_ fun j hj => h.store j fun u c' hu hau => ?_
  · show Follows prog (s.held t) s.store a.store (update s.thread t none t) (update a.thread t none t)
    rw [update_self, update_self]
    exact .idle hfree
  · have hut : u ≠ t := by
      rintro rfl
      have := hfree j
      simp [Locked.held, hu] at this
    exact hj u c' hu ((update_of_ne hut _ _).trans hau)

/-- A call that has not run goes on. -/
theorem Sim.growing (h : Sim prog s a) (hexec : ∀ c m, exec c m = (prog c).run (fun _ => false) m)
    (hat : a.thread t = some (c, none)) (hp : p.Growing (s.held t))
    (hrun : ∀ m', (∀ k, s.held t k = true → m' k = a.store k) →
      (prog c).run (fun _ => false) m' = p.run (s.held t) (overlay (s.held t) s.store m'))
    (hreq : s.request t c p = some (s', es)) : CanFollow prog exec m₀ a s' es := by
  cases p with
  | fail => cases hreq
  | ret r =>
      -- it has no locks, so it has read and written nothing: it runs and returns
      cases hreq
      have hret : exec c a.store = some (r, a.store) := by
        rw [hexec, hrun a.store fun _ _ => rfl, overlay_of_false hp]
        rfl
      exact ⟨[.step t, .step t], _, by simp [System.exec, atomicSystem, hat, hret], h.returns hp⟩
  | acquire k p =>
      simp only [Locked.request, Option.ite_none_right_eq_some, Option.some.injEq,
        Prod.mk.injEq] at hreq
      obtain ⟨hk, rfl, rfl⟩ := hreq
      exact .stay (h.acquire hat hp hrun hk)
  | release k p =>
      simp only [Locked.request, Option.ite_none_right_eq_some, Option.some.injEq,
        Prod.mk.injEq] at hreq
      obtain ⟨hk, rfl, rfl⟩ := hreq
      obtain ⟨r, hr⟩ := hp
      have hret : exec c a.store = some (r, overlay (s.held t) s.store a.store) := by
        rw [hexec, hrun a.store fun _ _ => rfl, hr.run]
      exact ⟨[.step t], _, by simp [System.exec, atomicSystem, hat, hret], h.commit hat hr⟩
  | read k f =>
      cases hreq
      obtain ⟨hk, hp⟩ := hp
      refine .stay (h.goOn hat (hp _) fun m' hm' => ?_)
      rw [hrun m' hm', Txn.run, overlay, if_pos hk]
  | write k v p =>
      cases hreq
      exact .stay (h.write hat hp hrun)

/-- A call that has run goes on. -/
theorem Sim.unwinding {r : ρ} (h : Sim prog s a) (hat : a.thread t = some (c, some r))
    (hp : p.Unwinds r (s.held t)) (hreq : s.request t c p = some (s', es)) :
    CanFollow prog exec m₀ a s' es := by
  cases p with
  | ret r' =>
      obtain rfl := hp.1
      cases hreq
      exact ⟨[.step t], _, by simp [System.exec, atomicSystem, hat], h.returns hp.2⟩
  | release k p =>
      simp only [Locked.request, Option.ite_none_right_eq_some, Option.some.injEq,
        Prod.mk.injEq] at hreq
      obtain ⟨-, rfl, rfl⟩ := hreq
      exact .stay (h.release hat hp)
  | fail | acquire | read | write => exact hp.elim

/-- A thread calls. -/
theorem Sim.call (h : Sim prog s a) (hprog : (prog c).Growing fun _ => false)
    (ht : s.thread t = none) :
    CanFollow prog exec m₀ a (s.goOn t c (prog c)) [.called t c] := by
  have hfollows := h.thread t
  rw [ht] at hfollows
  generalize hat : a.thread t = y at hfollows
  cases hfollows with
  | idle hfree =>
      have hheld : s.held t = fun _ => false := funext hfree
      refine ⟨[.call t c], { a with thread := update a.thread t (some (c, none)) },
        by simp [System.exec, atomicSystem, hat], ?_⟩
      refine h.of_move (t := t) (fun _ _ => rfl)
        (fun u hu => ⟨update_of_ne hu _ _, update_of_ne hu _ _⟩) (fun _ _ _ _ => ⟨rfl, rfl⟩) ?_
        fun j hj => h.store j fun u c' hu hau => ?_
      · show Follows prog (s.held t) s.store a.store (update s.thread t (some (c, prog c)) t)
          (update a.thread t (some (c, none)) t)
        rw [update_self, update_self, hheld]
        refine .growing hprog fun m' _ => ?_
        rw [overlay_of_false fun _ => rfl]
      · have hut : u ≠ t := by
          rintro rfl
          rw [hat] at hau
          cases hau
        exact hj u c' hu ((update_of_ne hut _ _).trans hau)

/-- The atomic system can follow every step. -/
theorem Sim.next (h : Sim prog s a) (hprog : ∀ c, (prog c).Growing fun _ => false)
    (hexec : ∀ c m, exec c m = (prog c).run (fun _ => false) m) {act : TxnAction T C}
    (hn : (lockedSystem prog m₀).next s act = some (s', es)) : CanFollow prog exec m₀ a s' es := by
  cases act with
  | call t c =>
      simp only [lockedSystem] at hn
      split at hn
      · cases hn
        exact h.call (hprog c) ‹_›
      · cases hn
  | step t =>
      simp only [lockedSystem] at hn
      split at hn
      · cases hn
      · rename_i c p hp
        have hfollows := h.thread t
        rw [hp] at hfollows
        generalize hat : a.thread t = y at hfollows
        cases hfollows with
        | growing hg hrun => exact h.growing hexec hat hg hrun hn
        | unwinding hu => exact h.unwinding hat hu hn

end

/-- A thread makes no request that its locks do not allow. -/
theorem Sim.disciplined {s : Locked T K V C ρ} {a : Atomic T K V C ρ} (h : Sim prog s a)
    (ht : s.thread t = some (c, p)) : p.Growing (s.held t) ∨ ∃ r, p.Unwinds r (s.held t) := by
  have hfollows := h.thread t
  rw [ht] at hfollows
  generalize a.thread t = y at hfollows
  cases hfollows with
  | growing hp _ => exact .inl hp
  | unwinding hp => exact .inr ⟨_, hp⟩

theorem Sim.holds_read {s : Locked T K V C ρ} {a : Atomic T K V C ρ} {f : V → Txn K V ρ}
    (h : Sim prog s a) (ht : s.thread t = some (c, .read k f)) : s.holder k = some t := by
  rcases h.disciplined ht with hp | ⟨r, hp⟩
  · simpa [Locked.held] using hp.1
  · exact hp.elim

theorem Sim.holds_release {s : Locked T K V C ρ} {a : Atomic T K V C ρ} (h : Sim prog s a)
    (ht : s.thread t = some (c, .release k p)) : s.holder k = some t := by
  rcases h.disciplined ht with ⟨r, hp⟩ | ⟨r, hp⟩ <;> simpa [Locked.held] using hp.1

/-- Two-phase transactions and transactions that run at once can go in step. -/
theorem exists_sim {exec : C → (K → V) → Option (ρ × (K → V))} {m₀ : K → V}
    (hprog : ∀ c, (prog c).Growing fun _ => false)
    (hexec : ∀ c m, exec c m = (prog c).run (fun _ => false) m) {τ : List (TxnEvent T C ρ)}
    {s : Locked T K V C ρ} (h : (lockedSystem prog m₀).Run τ s) :
    ∃ a, (atomicSystem exec m₀).Run τ a ∧ Sim prog s a := by
  induction h with
  | start hs =>
      cases hs
      exact ⟨_, .start rfl, fun t => .idle fun k => by simp [Locked.held], fun k _ => rfl⟩
  | step _ hn ih =>
      obtain ⟨a, hrun, hsim⟩ := ih
      obtain ⟨as, a', hex, hsim'⟩ := hsim.next hprog hexec hn
      exact ⟨a', hrun.exec hex, hsim'⟩

end

end Yfs.Lib
