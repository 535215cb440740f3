import Yfs.Lib.Condition
import Yfs.Lib.Rank
import Yfs.Rpc.ThrPool

/-!
# The condition variables of the thread pool

`poolSystem` lets a thread that waits at the queue look again at any time. Here the two condition
variables of the queue have their wait sets: `enq` signals `non_empty_c_` for each entry, `deq` signals
`has_space_c_` for each entry that it takes from a bounded queue, and a thread that sleeps goes on only
after it was signalled, or by a spurious wake-up. Any number of threads may be in `addJob`, and all of
them in front of the threads that were woken up.

Let the calls that are under way go on, and let no thread add a job. Then the pool comes to rest,
whatever the order of the steps: all jobs that were accepted have been run, every `addJob` has returned,
and so has the destructor, if it was called (`pool_completes`).
-/

namespace Yfs.Rpc

open Yfs.Lib Function

/-- The condition variables of a `fifo`. -/
inductive FifoCond where
  | nonEmpty
  | hasSpace
  deriving DecidableEq, Repr

namespace Fifo

variable {α : Type}

/-- What the threads at a condition variable wait for: entries, and space. -/
def permits (f : Fifo α) : FifoCond → Nat
  | .nonEmpty => f.q.length
  | .hasSpace => f.max - f.q.length

/-- What `deq` calls when it has left the queue as `f`. -/
def wakes (f : Fifo α) : List (Lib.Wake FifoCond) :=
  if f.max ≠ 0 ∧ f.q.length < f.max then [.signal .hasSpace] else []

end Fifo

/-- The threads at the queue: `n` workers, the destructor, and `k` threads that add jobs. -/
inductive PoolThread (n k : Nat) where
  | worker (i : Fin n)
  | dtor
  | adder (t : Fin k)
  deriving DecidableEq, Repr

structure PoolWaits (α : Type) (n k : Nat) where
  pool : Pool α n
  /-- The job with which a thread is in `addJob`. -/
  adding : Fin k → Option α
  waits : WaitSets FifoCond (PoolThread n k)

/-- What a section of `enq` or `deq` does. -/
structure Turn (α : Type) (n k : Nat) where
  pool : Pool α n
  adding : Fin k → Option α
  events : List (PoolEvent α n)
  wakes : List (Lib.Wake FifoCond)
  sleeps : Option FifoCond

inductive PoolMove (α : Type) (n k : Nat) where
  /-- A thread runs its next section; a signal in it wakes `who` up. -/
  | run (a : PoolThread n k) (who : Option (PoolThread n k))
  | finish (i : Fin n)
  | join
  | add (t : Fin k) (job : α)
  | destroy
  /-- A thread wakes up for no reason. -/
  | spurious (a : PoolThread n k)

namespace PoolWaits

variable {α : Type} {n k : Nat} (blocking : Bool) (s : PoolWaits α n k)

/-- The condition variable that a thread in `enq` or `deq` tests. -/
def cond : PoolThread n k → Option FifoCond
  | .worker i =>
      match s.pool.workers i with
      | .taking => some .nonEmpty
      | _ => none
  | .dtor =>
      match s.pool.dtor with
      | .enqueuing _ => some .hasSpace
      | _ => none
  | .adder t => (s.adding t).map fun _ => .hasSpace

def asleep (a : PoolThread n k) : Bool := (s.cond a).any fun c => a ∈ s.waits.sleeping c

/-- A section of `enq` or `deq`. The pool's `blockadd_` is `blocking`. -/
def turn : PoolThread n k → Option (Turn α n k)
  | .worker i => do
      let (pool, es) ← s.pool.next (.takeJob i)
      match s.pool.jobq.deq with
      | some (_, jobq) => return ⟨pool, s.adding, es, jobq.wakes, none⟩
      | none => return ⟨pool, s.adding, es, [], some .nonEmpty⟩
  | .dtor => do
      let (pool, es) ← s.pool.next .pill
      match s.pool.jobq.enq none with
      | some _ => return ⟨pool, s.adding, es, [.signal .nonEmpty], none⟩
      | none => return ⟨pool, s.adding, es, [], some .hasSpace⟩
  | .adder t => do
      let job ← s.adding t
      let (pool, es) ← s.pool.next (.addJob job)
      match s.pool.jobq.enq (some job) with
      | some _ => return ⟨pool, update s.adding t none, es, [.signal .nonEmpty], none⟩
      | none =>
          if blocking then return ⟨pool, s.adding, es, [], some .hasSpace⟩
          else return ⟨pool, update s.adding t none, es, [], none⟩

/-- A step of the pool that has nothing to do with the queue. -/
def step (a : PoolAction α n) : Option (PoolWaits α n k × List (PoolEvent α n)) :=
  (s.pool.next a).map fun r => ({ s with pool := r.1 }, r.2)

def next : PoolMove α n k → Option (PoolWaits α n k × List (PoolEvent α n))
  | .run a who =>
      if s.asleep a then none
      else do
        let r ← s.turn blocking a
        let waits ← s.waits.step a r.wakes who r.sleeps
        return (⟨r.pool, r.adding, waits⟩, r.events)
  | .finish i => s.step (.finish i)
  | .join => s.step .join
  | .add t job =>
      if s.pool.dtor = .notCalled ∧ s.adding t = none then
        some ({ s with adding := update s.adding t (some job) }, [])
      else none
  -- nobody may be in `addJob` when the destructor is called
  | .destroy => if ∀ t, s.adding t = none then s.step .destroy else none
  | .spurious a => do
      let c ← s.cond a
      if a ∈ s.waits.sleeping c then return ({ s with waits := s.waits.rouse a c }, []) else none

def new (α : Type) (n k : Nat) : PoolWaits α n k where
  pool := .new α n
  adding := fun _ => none
  waits := .empty

end PoolWaits

/-- A pool of `n` threads and `k` threads that add jobs, with the condition variables of the queue. -/
def poolWaitSystem (α : Type) (n k : Nat) (blocking : Bool) :
    System (PoolWaits α n k) (PoolMove α n k) (PoolEvent α n) where
  init s := s = .new α n k
  next := PoolWaits.next blocking

/-- The calls under way go on: no thread adds a job or calls the destructor, and nobody wakes up without
a reason. -/
def poolDrain (α : Type) (n k : Nat) (blocking : Bool) :
    System (PoolWaits α n k) (PoolMove α n k) (PoolEvent α n) where
  init := (poolWaitSystem α n k blocking).Reachable
  next s
    | .run a who => s.next blocking (.run a who)
    | .finish i => s.next blocking (.finish i)
    | .join => s.next blocking .join
    | .add .. | .destroy | .spurious _ => none

/-! ## What a section does -/

section

variable {α : Type} {n k : Nat} {blocking : Bool} {s s' : PoolWaits α n k} {a b : PoolThread n k}
  {who : Option (PoolThread n k)} {r : Turn α n k} {es : List (PoolEvent α n)}

/-- The state with the wait sets `w` after a section. -/
def Turn.state (r : Turn α n k) (w : WaitSets FifoCond (PoolThread n k)) : PoolWaits α n k :=
  ⟨r.pool, r.adding, w⟩

/-- An entry is put in or taken out, or there is no space or no entry. -/
inductive Turn.Effect (s : PoolWaits α n k) (a : PoolThread n k) (r : Turn α n k) : Prop where
  | put (e : Option α) : s.cond a = some .hasSpace → s.pool.jobq.enq e = some r.pool.jobq →
      r.wakes = [.signal .nonEmpty] → r.sleeps = none → Effect s a r
  | took (e : Option α) : s.cond a = some .nonEmpty → s.pool.jobq.deq = some (e, r.pool.jobq) →
      r.wakes = r.pool.jobq.wakes → r.sleeps = none → Effect s a r
  | full (e : Option α) : s.cond a = some .hasSpace → s.pool.jobq.enq e = none →
      r.pool = s.pool → r.wakes = [] → r.sleeps ≠ some .nonEmpty → Effect s a r
  | empty : s.cond a = some .nonEmpty → s.pool.jobq.deq = none →
      r.pool = s.pool → r.wakes = [] → r.sleeps = some .nonEmpty → Effect s a r

/-- The work that a worker has left with its job. -/
def WorkerPc.load : WorkerPc α → Nat
  | .running _ => 2
  | _ => 0

/-- The steps that the destructor has left, and what they make others do. -/
def DtorPc.load (n : Nat) : DtorPc → Nat
  | notCalled | done => 0
  | enqueuing i => 4 * (n - i) + n + 1
  | joining i => n - i

/-- The work that is left. An entry is taken and run; before that, a job is put in. -/
def PoolWaits.work (s : PoolWaits α n k) : Nat :=
  3 * s.pool.jobq.q.length + ∑ i, (s.pool.workers i).load + ∑ t, (s.adding t).elim 0 (fun _ => 4) +
    s.pool.dtor.load n

/-- What is known of a section of thread `a`. -/
structure Turn.Ok (s : PoolWaits α n k) (a : PoolThread n k) (r : Turn α n k) : Prop where
  step : ∃ x, s.pool.next x = some (r.pool, r.events)
  effect : r.Effect s a
  other : ∀ w b, b ≠ a → (r.state w).cond b = s.cond b
  own : ∀ w c, r.sleeps = some c → (r.state w).cond a = some c
  adding : s.adding = (fun _ => none) → r.adding = fun _ => none
  dtor : s.pool.dtor = .notCalled ↔ r.pool.dtor = .notCalled
  work : ∀ w, r.sleeps = none → (r.state w).work < s.work
  rest : r.sleeps ≠ none → r.pool = s.pool ∧ r.adding = s.adding

theorem enq_q {f f' : Fifo (Option α)} {e : Option α} (h : f.enq e = some f') :
    f'.q = f.q ++ [e] := by
  unfold Fifo.enq at h
  split at h <;> cases h
  rfl

/-- Worker `i` takes an entry. -/
theorem Turn.ok_took {i : Fin n} {e : Option α} {jobq : Fifo (Option α)} {pc : WorkerPc α}
    (hi : s.pool.workers i = .taking) (hq : s.pool.jobq.deq = some (e, jobq)) (hpc : pc.load ≤ 2)
    (hstep : ∃ x, s.pool.next x =
      some ({ s.pool with jobq, workers := update s.pool.workers i pc }, es)) :
    Turn.Ok s (.worker i)
      ⟨{ s.pool with jobq, workers := update s.pool.workers i pc }, s.adding, es,
        jobq.wakes, none⟩ where
  step := hstep
  effect := .took e (by simp [PoolWaits.cond, hi]) hq rfl rfl
  other w b hb := by
    cases b with
    | worker j =>
        have hj : j ≠ i := fun h => hb (by rw [h])
        simp [PoolWaits.cond, Turn.state, hj]
    | dtor | adder t => rfl
  own := by simp
  adding := id
  dtor := Iff.rfl
  work w _ := by
    have hload := sum_update WorkerPc.load s.pool.workers i pc
    rw [hi, show (WorkerPc.taking : WorkerPc α).load = 0 from rfl] at hload
    have hlen := congrArg List.length (Pool.deq_cases hq).1
    simp only [PoolWaits.work, Turn.state, List.length_cons] at hlen ⊢
    omega
  rest := by simp

/-- Thread `a` finds no entry, or no space, and goes to sleep. -/
theorem Turn.ok_sleeps {c : FifoCond} (hc : s.cond a = some c)
    (heffect : Turn.Effect s a ⟨s.pool, s.adding, es, [], some c⟩)
    (hstep : ∃ x, s.pool.next x = some (s.pool, es)) :
    Turn.Ok s a ⟨s.pool, s.adding, es, [], some c⟩ where
  step := hstep
  effect := heffect
  other w b _ := by cases b <;> rfl
  own w c' hc' := by
    cases hc'
    cases a <;> exact hc
  adding := id
  dtor := Iff.rfl
  work w h := by cases h
  rest _ := ⟨rfl, rfl⟩

theorem turn_worker {i : Fin n} (h : s.turn blocking (.worker i) = some r) :
    r.Ok s (.worker i) := by
  simp only [PoolWaits.turn, Option.bind_eq_bind, Option.bind_eq_some_iff] at h
  obtain ⟨⟨pool, es⟩, hn, h⟩ := h
  have hstep := hn
  simp only [Pool.next] at hn
  split at hn
  · rename_i hi
    split at hn
    · rename_i job jobq hq
      cases hn
      rw [hq] at h
      cases h
      exact Turn.ok_took hi hq (Nat.le_refl _) ⟨_, hstep⟩
    · rename_i jobq hq
      cases hn
      rw [hq] at h
      cases h
      exact Turn.ok_took hi hq (Nat.zero_le _) ⟨_, hstep⟩
    · rename_i hq
      cases hn
      rw [hq] at h
      cases h
      have hc : s.cond (.worker i) = some .nonEmpty := by simp [PoolWaits.cond, hi]
      exact Turn.ok_sleeps hc (.empty hc hq rfl rfl rfl) ⟨_, hstep⟩
  · cases hn

theorem enqueueFrom_load {i : Nat} (hi : i < n) :
    (Pool.enqueueFrom n (i + 1)).load n + 3 < (DtorPc.enqueuing i).load n := by
  unfold Pool.enqueueFrom Pool.joinFrom
  split
  · simp only [DtorPc.load]
    omega
  · split <;> simp only [DtorPc.load] <;> omega

theorem enqueueFrom_ne (i : Nat) : Pool.enqueueFrom n i ≠ .notCalled := by
  unfold Pool.enqueueFrom Pool.joinFrom
  split
  · simp
  · split <;> simp

theorem turn_dtor {i : Nat} (hd : s.pool.dtor = .enqueuing i) (hi : i < n)
    (h : s.turn blocking .dtor = some r) : r.Ok s .dtor := by
  simp only [PoolWaits.turn, Option.bind_eq_bind, Option.bind_eq_some_iff] at h
  obtain ⟨⟨pool, es⟩, hn, h⟩ := h
  have hstep := hn
  have hc : s.cond .dtor = some .hasSpace := by simp [PoolWaits.cond, hd]
  simp only [Pool.next, hd] at hn
  split at hn
  · rename_i jobq hq
    cases hn
    rw [hq] at h
    cases h
    constructor
    case step => exact ⟨_, hstep⟩
    case effect => exact .put none hc hq rfl rfl
    case other =>
      intro w b hb
      cases b with
      | dtor => exact absurd rfl hb
      | worker j | adder t => rfl
    case own => simp
    case adding => exact id
    case dtor => simp [hd, enqueueFrom_ne]
    case work =>
      intro w _
      have hload := enqueueFrom_load hi
      have hlen : jobq.q.length = s.pool.jobq.q.length + 1 := by
        rw [enq_q hq, List.length_append]
        rfl
      simp only [PoolWaits.work, Turn.state, hd]
      omega
    case rest => simp
  · rename_i hq
    cases hn
    rw [hq] at h
    cases h
    exact Turn.ok_sleeps hc (.full none hc hq rfl rfl (by simp)) ⟨_, hstep⟩

theorem turn_adder {t : Fin k} (h : s.turn blocking (.adder t) = some r) : r.Ok s (.adder t) := by
  simp only [PoolWaits.turn, Option.bind_eq_bind, Option.bind_eq_some_iff] at h
  obtain ⟨job, hjob, ⟨pool, es⟩, hn, h⟩ := h
  have hstep := hn
  have hc : s.cond (.adder t) = some .hasSpace := by simp [PoolWaits.cond, hjob]
  have hload := sum_update (fun j : Option α => j.elim 0 fun _ => 4) s.adding t none
  simp only [hjob, Option.elim_some, Option.elim_none] at hload
  have hother : ∀ (pool : Pool α n) (es : List (PoolEvent α n)) ks p w b, b ≠ .adder t →
      pool.workers = s.pool.workers → pool.dtor = s.pool.dtor →
      (Turn.state ⟨pool, update s.adding t none, es, ks, p⟩ w).cond b = s.cond b := by
    intro pool es ks p w b hb hw hd
    cases b with
    | worker j => simp [PoolWaits.cond, Turn.state, hw]
    | dtor => simp [PoolWaits.cond, Turn.state, hd]
    | adder u =>
        have hu : u ≠ t := fun h => hb (by rw [h])
        simp [PoolWaits.cond, Turn.state, hu]
  have hnone : s.adding = (fun _ => none) → update s.adding t none = fun _ => none := by
    intro h
    rw [h, update_eq_self_iff]
  simp only [Pool.next] at hn
  split at hn
  · split at hn
    · rename_i jobq hq
      cases hn
      rw [hq] at h
      cases h
      constructor
      case step => exact ⟨_, hstep⟩
      case effect => exact .put (some job) hc hq rfl rfl
      case other => exact fun w b hb => hother _ _ _ _ w b hb rfl rfl
      case own => simp
      case adding => exact hnone
      case dtor => exact Iff.rfl
      case work =>
        intro w _
        have hlen : jobq.q.length = s.pool.jobq.q.length + 1 := by
          rw [enq_q hq, List.length_append]
          rfl
        simp only [PoolWaits.work, Turn.state]
        omega
      case rest => simp
    · rename_i hq
      cases hn
      rw [hq] at h
      cases blocking with
      | true =>
          cases h
          exact Turn.ok_sleeps hc (.full (some job) hc hq rfl rfl (by simp)) ⟨_, hstep⟩
      | false =>
          -- `addJob` returns false
          cases h
          constructor
          case step => exact ⟨_, hstep⟩
          case effect => exact .full (some job) hc hq rfl rfl (by simp)
          case other => exact fun w b hb => hother _ _ _ _ w b hb rfl rfl
          case own => simp
          case adding => exact hnone
          case dtor => exact Iff.rfl
          case work =>
            intro w _
            simp only [PoolWaits.work, Turn.state]
            omega
          case rest => simp
  · cases hn

theorem turn_ok {τ : List (PoolEvent α n)} {jobs : List α} {p : Nat} (hc : s.pool.Counts τ jobs p)
    (h : s.turn blocking a = some r) : r.Ok s a := by
  cases a with
  | worker i => exact turn_worker h
  | adder t => exact turn_adder h
  | dtor =>
      cases hd : s.pool.dtor with
      | enqueuing i =>
          have hi := hc.joined
          rw [hd] at hi
          exact turn_dtor hd hi h
      | _ => simp [PoolWaits.turn, Pool.next, hd] at h

/-- A thread in `enq` or `deq` that is awake can go on. -/
theorem exists_turn (hc : s.cond a ≠ none)
    (hadding : s.pool.dtor ≠ .notCalled → s.adding = fun _ => none) :
    ∃ r, s.turn blocking a = some r := by
  cases a with
  | worker i =>
      cases hi : s.pool.workers i with
      | taking =>
          cases hq : s.pool.jobq.deq with
          | none => simp [PoolWaits.turn, Pool.next, hi, hq]
          | some e =>
              obtain ⟨_ | job, jobq⟩ := e <;> simp [PoolWaits.turn, Pool.next, hi, hq]
      | _ => simp [PoolWaits.cond, hi] at hc
  | dtor =>
      cases hd : s.pool.dtor with
      | enqueuing i => cases hq : s.pool.jobq.enq none <;> simp [PoolWaits.turn, Pool.next, hd, hq]
      | _ => simp [PoolWaits.cond, hd] at hc
  | adder t =>
      cases hjob : s.adding t with
      | none => simp [PoolWaits.cond, hjob] at hc
      | some job =>
          have hd : s.pool.dtor = .notCalled := by
            by_contra hne
            simp [hadding hne] at hjob
          cases hq : s.pool.jobq.enq (some job) with
          | some jobq => simp [PoolWaits.turn, Pool.next, hjob, hd, hq]
          | none => cases blocking <;> simp [PoolWaits.turn, Pool.next, hjob, hd, hq]

/-! ## No wake-up is lost -/

/-- As many threads that stand at a condition variable are awake as there is of what they wait for, if
any sleep there. -/
structure PoolInv (s : PoolWaits α n k) : Prop where
  placed : s.waits.Placed s.cond
  covered : ∀ c, s.waits.Covered s.cond c (s.pool.jobq.permits c)
  adding : s.pool.dtor ≠ .notCalled → s.adding = fun _ => none

theorem PoolWaits.asleep_iff {c : FifoCond} (h : s.cond a = some c) :
    s.asleep a = true ↔ a ∈ s.waits.sleeping c := by
  simp [asleep, h]

/-- The section of thread `a` covers what it has made available. -/
theorem Turn.Effect.permits (h : r.Effect s a) (hmax : s.pool.jobq.max ≠ 0)
    (hbound : s.pool.jobq.q.length ≤ s.pool.jobq.max) (c : FifoCond) :
    r.pool.jobq.permits c = 0 ∨ (.broadcast c ∈ r.wakes ∧ r.sleeps ≠ some c) ∨
      (r.pool.jobq.permits c + (if s.cond a = some c then 1 else 0) ≤
        s.pool.jobq.permits c + r.wakes.count (.signal c) ∧ r.sleeps ≠ some c) := by
  cases h with
  | put e hc hq hwakes hsleeps =>
      have hlt : s.pool.jobq.q.length < s.pool.jobq.max ∧ r.pool.jobq.max = s.pool.jobq.max := by
        unfold Fifo.enq at hq
        split at hq
        · rename_i hspace
          exact ⟨by omega, by rw [← Option.some.inj hq]⟩
        · cases hq
      have hlen : r.pool.jobq.q.length = s.pool.jobq.q.length + 1 := by
        rw [enq_q hq, List.length_append]
        rfl
      refine .inr (.inr ⟨?_, by simp [hsleeps]⟩)
      cases c <;> simp [Fifo.permits, hc, hwakes, hlen]
      omega
  | took e hc hq hwakes hsleeps =>
      obtain ⟨hq', hmax'⟩ := Pool.deq_cases hq
      have hlen : s.pool.jobq.q.length = r.pool.jobq.q.length + 1 := by
        rw [hq']
        rfl
      have hsignal : r.wakes = [.signal .hasSpace] := by
        rw [hwakes, Fifo.wakes, if_pos (by omega)]
      refine .inr (.inr ⟨?_, by simp [hsleeps]⟩)
      cases c <;> simp [Fifo.permits, hc, hsignal, hlen, hmax']
      omega
  | full e hc hq hpool hwakes hsleeps =>
      have hfull : s.pool.jobq.max ≤ s.pool.jobq.q.length := by
        unfold Fifo.enq at hq
        split at hq
        · cases hq
        · omega
      rw [hpool]
      cases c with
      | nonEmpty =>
          refine .inr (.inr ⟨?_, hsleeps⟩)
          simp [hc]
      | hasSpace =>
          left
          simp only [Fifo.permits]
          omega
  | empty hc hq hpool hwakes hsleeps =>
      have hnil : s.pool.jobq.q = [] := by
        unfold Fifo.deq at hq
        split at hq
        · assumption
        · cases hq
      rw [hpool]
      cases c with
      | nonEmpty =>
          left
          simp [Fifo.permits, hnil]
      | hasSpace =>
          refine .inr (.inr ⟨?_, by simp [hsleeps]⟩)
          simp [hc]

theorem PoolInv.turn (h : PoolInv s) {τ : List (PoolEvent α n)} {jobs : List α} {p : Nat}
    (hc : s.pool.Counts τ jobs p) (hn : 0 < n) (hawake : s.asleep a = false) (hok : r.Ok s a)
    {w : WaitSets FifoCond (PoolThread n k)}
    (hw : s.waits.step a r.wakes who r.sleeps = some w) : PoolInv (r.state w) := by
  have hplace : ∀ c b, update s.cond a r.sleeps b = some c → (r.state w).cond b = some c := by
    intro c b hb
    by_cases hba : b = a
    · subst hba
      rw [update_self] at hb
      exact hok.own w c hb
    · rw [update_of_ne hba] at hb
      rw [hok.other w b hba, hb]
  have hfree : ∀ c, a ∉ s.waits.sleeping c := by
    intro c hmem
    rw [(PoolWaits.asleep_iff (h.placed c a hmem)).mpr hmem] at hawake
    cases hawake
  constructor
  · exact fun c b hb => hplace c b (h.placed.step hfree hw c b hb)
  · intro c
    have hpermits := hok.effect.permits (by rw [hc.max]; omega) (by rw [hc.max]; exact hc.bound) c
    exact ((h.covered c).step h.placed hw hpermits).place (hplace c)
  · intro hd
    exact hok.adding (h.adding fun hd' => hd (hok.dtor.mp hd'))

/-- A step that leaves the queue and the wait sets alone, after which the threads stand at least where
they stood. -/
theorem PoolInv.of_step (h : PoolInv s) (hwaits : s'.waits = s.waits)
    (hq : s'.pool.jobq = s.pool.jobq) (hcond : ∀ b c, s.cond b = some c → s'.cond b = some c)
    (hadding : s'.pool.dtor ≠ .notCalled → s'.adding = fun _ => none) : PoolInv s' where
  placed c b hb := by
    rw [hwaits] at hb
    exact hcond b c (h.placed c b hb)
  covered c := by
    rw [hwaits, hq]
    exact (h.covered c).place fun b => hcond b c
  adding := hadding

/-- The steps of a worker or of the destructor outside of the queue. -/
theorem PoolInv.step (h : PoolInv s) {x : PoolAction α n} (hx : (∃ i, x = .finish i) ∨ x = .join ∨
      x = .destroy ∧ s.adding = fun _ => none)
    (hstep : s.step x = some (s', es)) :
    PoolInv s' ∧ (poolSystem α n).next s.pool x = some (s'.pool, es) := by
  obtain ⟨⟨pool, es'⟩, hn, heq⟩ := Option.map_eq_some_iff.mp hstep
  cases heq
  refine ⟨?_, hn⟩
  rcases hx with ⟨i, rfl⟩ | rfl | ⟨rfl, hadding⟩
  · simp only [Pool.next] at hn
    split at hn
    · rename_i job hi
      cases hn
      refine h.of_step rfl rfl (fun b c hb => ?_) h.adding
      cases b with
      | worker j =>
          by_cases hj : j = i
          · subst hj
            simp [PoolWaits.cond, hi] at hb
          · simpa [PoolWaits.cond, hj] using hb
      | dtor | adder t => exact hb
    · cases hn
  · simp only [Pool.next] at hn
    split at hn
    · rename_i i hd
      split at hn
      · split at hn
        · cases hn
          refine h.of_step rfl rfl (fun b c hb => ?_) fun _ => h.adding (by simp [hd])
          cases b with
          | dtor => simp [PoolWaits.cond, hd] at hb
          | worker j | adder t => exact hb
        · cases hn
      · cases hn
    · cases hn
  · simp only [Pool.next] at hn
    split at hn
    · rename_i hd
      cases hn
      refine h.of_step rfl rfl (fun b c hb => ?_) fun _ => hadding
      cases b with
      | dtor => simp [PoolWaits.cond, hd] at hb
      | worker j | adder t => exact hb
    · cases hn

theorem next_run {c : PoolWaits α n k} : c.next blocking (.run a who) = some (s', es) ↔
    c.asleep a = false ∧ ∃ r w, c.turn blocking a = some r ∧
      c.waits.step a r.wakes who r.sleeps = some w ∧ s' = r.state w ∧ es = r.events := by
  simp only [PoolWaits.next]
  split
  · simp [*]
  · rename_i h
    rw [Bool.not_eq_true] at h
    simp only [Option.bind_eq_bind, Option.bind_eq_some_iff, Option.pure_def, Option.some.injEq,
      Prod.mk.injEq, h, true_and, Turn.state]
    constructor
    · rintro ⟨r, hr, w, hw, rfl, rfl⟩
      exact ⟨r, w, hr, hw, rfl, rfl⟩
    · rintro ⟨r, w, hr, hw, rfl, rfl⟩
      exact ⟨r, hr, w, hw, rfl, rfl⟩

/-- Forgetting the wait sets, a run is a run of the pool. -/
theorem poolInv_run (hn : 0 < n) {τ : List (PoolEvent α n)}
    (h : (poolWaitSystem α n k blocking).Run τ s) : (poolSystem α n).Run τ s.pool ∧ PoolInv s := by
  induction h with
  | start hs =>
      cases hs
      refine ⟨.start rfl, fun c a ha => ?_, fun c => .of_empty rfl, fun _ => rfl⟩
      simp [PoolWaits.new, WaitSets.empty] at ha
  | @step τ s act s' es _ hnext ih =>
      obtain ⟨hrun, hinv⟩ := ih
      obtain ⟨jobs, p, hc⟩ := Pool.counts_of_run hn hrun
      cases act with
      | run a who =>
          obtain ⟨hawake, r, w, hr, hw, rfl, rfl⟩ := next_run.mp hnext
          have hok := turn_ok hc hr
          obtain ⟨x, hx⟩ := hok.step
          exact ⟨hrun.step hx, hinv.turn hc hn hawake hok hw⟩
      | finish i =>
          obtain ⟨hinv', hx⟩ := hinv.step (.inl ⟨i, rfl⟩) hnext
          exact ⟨hrun.step hx, hinv'⟩
      | join =>
          obtain ⟨hinv', hx⟩ := hinv.step (.inr (.inl rfl)) hnext
          exact ⟨hrun.step hx, hinv'⟩
      | destroy =>
          simp only [poolWaitSystem, PoolWaits.next] at hnext
          split at hnext
          · rename_i hadding
            obtain ⟨hinv', hx⟩ := hinv.step (.inr (.inr ⟨rfl, funext hadding⟩)) hnext
            exact ⟨hrun.step hx, hinv'⟩
          · cases hnext
      | add t job =>
          simp only [poolWaitSystem, PoolWaits.next] at hnext
          split at hnext
          · rename_i hadd
            cases hnext
            rw [List.append_nil]
            refine ⟨hrun, hinv.of_step rfl rfl (fun b c hb => ?_) fun hd => absurd hadd.1 hd⟩
            cases b with
            | adder u =>
                by_cases hu : u = t
                · subst hu
                  simp [PoolWaits.cond, hadd.2] at hb
                · simpa [PoolWaits.cond, hu] using hb
            | worker j | dtor => exact hb
          · cases hnext
      | spurious a =>
          simp only [poolWaitSystem, PoolWaits.next, Option.bind_eq_bind,
            Option.bind_eq_some_iff] at hnext
          obtain ⟨c, -, hnext⟩ := hnext
          split at hnext
          · cases hnext
            rw [List.append_nil]
            exact ⟨hrun, hinv.placed.rouse, fun c => (hinv.covered c).rouse, hinv.adding⟩
          · cases hnext

/-! ## The pool comes to rest -/

def threads (n k : Nat) : List (PoolThread n k) :=
  .dtor :: ((List.finRange n).map .worker ++ (List.finRange k).map .adder)

theorem mem_threads (a : PoolThread n k) : a ∈ threads n k := by
  cases a <;> simp [threads]

/-- 1 if the thread is in `enq` or `deq` and awake. -/
def PoolWaits.awake (s : PoolWaits α n k) (a : PoolThread n k) : Nat :=
  if s.cond a ≠ none ∧ s.asleep a = false then 1 else 0

theorem PoolWaits.awake_le (s : PoolWaits α n k) (a : PoolThread n k) : s.awake a ≤ 1 := by
  unfold awake
  split <;> omega

/-- The work that is left, and then the threads that have not gone to sleep yet. -/
def PoolWaits.rank (s : PoolWaits α n k) : Nat :=
  pack (1 * (threads n k).length) s.work (total s.awake (threads n k))

theorem PoolWaits.rank_lt_of_work (h : s'.work < s.work) : s'.rank < s.rank :=
  pack_lt_of_fst (total_bound s'.awake_le _) h

/-- A section that ends asleep calls nobody. -/
theorem Turn.Effect.quiet {c : FifoCond} (h : r.Effect s a) (hc : r.sleeps = some c) :
    r.wakes = [] := by
  cases h with
  | put _ _ _ _ hs | took _ _ _ _ hs =>
      rw [hs] at hc
      cases hc
  | full _ _ _ _ hwakes _ => exact hwakes
  | empty _ _ _ hwakes _ => exact hwakes

theorem Turn.Ok.rank_lt (h : r.Ok s a) (hcond : s.cond a ≠ none) (hawake : s.asleep a = false)
    {w : WaitSets FifoCond (PoolThread n k)}
    (hw : s.waits.step a r.wakes who r.sleeps = some w) : (r.state w).rank < s.rank := by
  cases hsleeps : r.sleeps with
  | none => exact PoolWaits.rank_lt_of_work (h.work w hsleeps)
  | some c =>
      obtain ⟨hpool, hadding⟩ := h.rest (by simp [hsleeps])
      rw [hsleeps, h.effect.quiet hsleeps] at hw
      obtain ⟨w₁, hw₁, hw⟩ := WaitSets.step_eq_some.mp hw
      cases hw₁
      have hwork : (r.state w).work = s.work := by
        simp only [PoolWaits.work, Turn.state, hpool, hadding]
      have hown : (r.state w).awake a = 0 := by
        have hmem : a ∈ w.sleeping c := by
          rw [← hw]
          exact WaitSets.mem_sleep.mpr (.inr ⟨rfl, rfl⟩)
        have hasleep : (r.state w).asleep a = true :=
          (PoolWaits.asleep_iff (h.own w c hsleeps)).mpr hmem
        simp [PoolWaits.awake, hasleep]
      have hother : ∀ b, b ≠ a → (r.state w).awake b = s.awake b := by
        intro b hb
        have hmem : ∀ d, b ∈ w.sleeping d ↔ b ∈ s.waits.sleeping d := by
          intro d
          rw [← hw]
          simp [WaitSets.mem_sleep, hb]
        have hasleep : (r.state w).asleep b = s.asleep b := by
          unfold PoolWaits.asleep
          rw [h.other w b hb]
          cases s.cond b with
          | none => rfl
          | some d => simp [Turn.state, hmem]
        simp only [PoolWaits.awake, h.other w b hb, hasleep]
      have hlt : (r.state w).awake a < s.awake a := by
        rw [hown, PoolWaits.awake, if_pos ⟨hcond, hawake⟩]
        exact Nat.one_pos
      refine pack_lt_of_snd (le_of_eq hwork) (total_lt (fun b _ => ?_) (mem_threads a) hlt)
      by_cases hb : b = a
      · rw [hb]
        exact le_of_lt hlt
      · exact le_of_eq (hother b hb)

theorem turn_cond (h : s.turn blocking a = some r) : s.cond a ≠ none := by
  cases a with
  | worker i =>
      cases hi : s.pool.workers i <;> simp [PoolWaits.turn, Pool.next, hi, PoolWaits.cond] at h ⊢
  | dtor =>
      cases hd : s.pool.dtor <;> simp [PoolWaits.turn, Pool.next, hd, PoolWaits.cond] at h ⊢
  | adder t => cases hj : s.adding t <;> simp [PoolWaits.turn, hj, PoolWaits.cond] at h ⊢

theorem finish_work {i : Fin n} (h : s.step (.finish i) = some (s', es)) : s'.work < s.work := by
  obtain ⟨⟨pool, es'⟩, hn, heq⟩ := Option.map_eq_some_iff.mp h
  cases heq
  simp only [Pool.next] at hn
  split at hn
  · rename_i job hi
    cases hn
    have hload := sum_update WorkerPc.load s.pool.workers i .taking
    rw [hi, show (WorkerPc.taking : WorkerPc α).load = 0 from rfl,
      show (WorkerPc.running job).load = 2 from rfl] at hload
    simp only [PoolWaits.work]
    omega
  · cases hn

theorem join_work (h : s.step .join = some (s', es)) : s'.work < s.work := by
  obtain ⟨⟨pool, es'⟩, hn, heq⟩ := Option.map_eq_some_iff.mp h
  cases heq
  simp only [Pool.next] at hn
  split at hn
  · rename_i i hd
    split at hn
    · split at hn
      · cases hn
        have hload : (Pool.joinFrom n (i + 1)).load n < (DtorPc.joining i).load n := by
          unfold Pool.joinFrom
          split <;> simp only [DtorPc.load] <;> omega
        simp only [PoolWaits.work, hd]
        omega
      · cases hn
    · cases hn
  · cases hn

theorem drain_next {x : PoolMove α n k} (h : (poolDrain α n k blocking).next s x = some (s', es)) :
    (poolWaitSystem α n k blocking).next s x = some (s', es) := by
  cases x <;> first | exact h | cases h

theorem drain_rank {τ : List (PoolEvent α n)} {jobs : List α} {p : Nat}
    (hc : s.pool.Counts τ jobs p) {x : PoolMove α n k}
    (h : (poolDrain α n k blocking).next s x = some (s', es)) : s'.rank < s.rank := by
  cases x with
  | run a who =>
      obtain ⟨hawake, r, w, hr, hw, rfl, -⟩ := next_run.mp h
      exact (turn_ok hc hr).rank_lt (turn_cond hr) hawake hw
  | finish i => exact PoolWaits.rank_lt_of_work (finish_work h)
  | join => exact PoolWaits.rank_lt_of_work (join_work h)
  | add | destroy | spurious => cases h

/-- Nobody runs a job, nobody is in `addJob`, and the destructor was not called or has returned. -/
structure PoolWaits.AtRest (s : PoolWaits α n k) : Prop where
  queue : s.pool.jobq.q = []
  workers : ∀ i job, s.pool.workers i ≠ .running job
  adding : ∀ t, s.adding t = none
  dtor : s.pool.dtor = .notCalled ∨ s.pool.dtor = .done

/-- The destructor joins only workers that there are. -/
theorem joining_lt {τ : List (PoolEvent α n)} {q : Pool α n} (h : (poolSystem α n).Run τ q) :
    ∀ i, q.dtor = .joining i → i < n := by
  have hfrom : ∀ j i, Pool.joinFrom n j = .joining i → i < n := by
    intro j i h
    unfold Pool.joinFrom at h
    split at h <;> cases h
    assumption
  have hpills : ∀ j i, Pool.enqueueFrom n j = .joining i → i < n := by
    intro j i h
    unfold Pool.enqueueFrom at h
    split at h
    · cases h
    · exact hfrom 0 i h
  induction h with
  | start hs =>
      cases hs
      simp [Pool.new]
  | @step τ q act q' es _ hn ih =>
      cases act <;> simp only [poolSystem, Pool.next] at hn <;> repeat' split at hn
      all_goals cases hn
      all_goals first | exact ih | exact hpills _ | exact hfrom _

theorem gone_le (pc : WorkerPc α) : pc.gone ≤ 1 := by
  cases pc <;> simp [WorkerPc.gone]

theorem PoolInv.atRest (h : PoolInv s) (hn : 0 < n) {τ : List (PoolEvent α n)} {jobs : List α}
    {p : Nat} (hc : s.pool.Counts τ jobs p) (hjoining : ∀ i, s.pool.dtor = .joining i → i < n)
    (hstuck : ∀ x, (poolDrain α n k blocking).next s x = none) : s.AtRest := by
  have hworkers : ∀ i job, s.pool.workers i ≠ .running job := by
    intro i job hi
    have := hstuck (.finish i)
    simp [poolDrain, PoolWaits.next, PoolWaits.step, Pool.next, hi] at this
  have hasleep : ∀ a, s.cond a ≠ none → s.asleep a = true := by
    intro a ha
    by_contra hawake
    rw [Bool.not_eq_true] at hawake
    obtain ⟨r, hr⟩ : ∃ r, s.turn blocking a = some r := exists_turn ha h.adding
    have hsignals : r.wakes.countP Lib.Wake.isSignal ≤ 1 := by
      cases (turn_ok hc hr).effect with
      | put _ _ _ hwakes _ => simp [hwakes, Lib.Wake.isSignal]
      | took _ _ _ hwakes _ =>
          rw [hwakes, Fifo.wakes]
          split <;> simp [Lib.Wake.isSignal]
      | full _ _ _ _ hwakes _ => simp [hwakes]
      | empty _ _ _ hwakes _ => simp [hwakes]
    obtain ⟨who, w, hw⟩ := WaitSets.exists_step hsignals s.waits a r.sleeps
    have hnext := next_run.mpr ⟨hawake, r, w, hr, hw, rfl, rfl⟩
    rw [show s.next blocking (.run a who) = none from hstuck (.run a who)] at hnext
    cases hnext
  -- where there is something to wait for, nobody stands
  have hnobody : ∀ c, s.pool.jobq.permits c ≠ 0 → ∀ a, s.cond a ≠ some c := by
    intro c hpos a ha
    have hmem := (PoolWaits.asleep_iff ha).mp (hasleep a (by simp [ha]))
    obtain ⟨b, hb, hnot⟩ := (h.covered c).exists_awake (Nat.pos_of_ne_zero hpos) ⟨a, hmem⟩
    exact hnot ((PoolWaits.asleep_iff hb).mp (hasleep b (by simp [hb])))
  have hqueue : s.pool.jobq.q = [] := by
    by_contra hne
    have hexit : ∀ i, s.pool.workers i = .exited := by
      intro i
      have hplace := hnobody .nonEmpty (by simpa [Fifo.permits] using hne) (.worker i)
      cases hi : s.pool.workers i with
      | exited => rfl
      | taking => simp [PoolWaits.cond, hi] at hplace
      | running job => exact absurd hi (hworkers i job)
    -- every worker has taken a pill, so no pill is left, and no job was behind one
    have hjobs : jobs = [] := by
      by_contra hjobs
      have := hc.order hjobs ⟨0, hn⟩
      simp [hexit, WorkerPc.gone] at this
    have hpills := hc.pills
    have hle : s.pool.dtor.pills n ≤ n := by
      cases hd : s.pool.dtor with
      | enqueuing i =>
          have hi := hc.joined
          rw [hd] at hi
          exact le_of_lt hi
      | notCalled => exact Nat.zero_le n
      | _ => exact Nat.le_refl n
    simp only [hexit, WorkerPc.gone, Finset.sum_const, Finset.card_univ, Fintype.card_fin,
      smul_eq_mul, mul_one] at hpills
    obtain rfl : p = 0 := by omega
    rw [hc.queue, hjobs] at hne
    exact hne rfl
  have hspace : s.pool.jobq.permits .hasSpace ≠ 0 := by
    simp only [Fifo.permits, hqueue, hc.max, List.length_nil]
    omega
  have hadding : ∀ t, s.adding t = none := by
    intro t
    have hplace := hnobody .hasSpace hspace (.adder t)
    cases ht : s.adding t with
    | none => rfl
    | some job => simp [PoolWaits.cond, ht] at hplace
  refine ⟨hqueue, hworkers, hadding, ?_⟩
  cases hd : s.pool.dtor with
  | notCalled => exact .inl rfl
  | done => exact .inr rfl
  | enqueuing i =>
      have hplace := hnobody .hasSpace hspace .dtor
      simp [PoolWaits.cond, hd] at hplace
  | joining i =>
      -- all pills have been taken, so every worker can be joined
      have hpills := hc.pills
      have hp : p = 0 := by
        have hlen := congrArg List.length hc.queue
        simp [hqueue] at hlen
        omega
      rw [hd, hp, Nat.zero_add, DtorPc.pills] at hpills
      have hall : ∑ j, (s.pool.workers j).gone = ∑ _j : Fin n, 1 := by simp [hpills]
      have hgone := (Finset.sum_eq_sum_iff_of_le fun j _ => gone_le (s.pool.workers j)).mp hall
        ⟨i, hjoining i hd⟩ (Finset.mem_univ _)
      have hexit : s.pool.workers ⟨i, hjoining i hd⟩ = .exited := by
        cases hw : s.pool.workers ⟨i, hjoining i hd⟩ with
        | exited => rfl
        | _ => simp [hw, WorkerPc.gone] at hgone
      have := hstuck .join
      simp [poolDrain, PoolWaits.next, PoolWaits.step, Pool.next, hd, hjoining i hd, hexit] at this

theorem drain_run {τ : List (PoolEvent α n)} (h : (poolWaitSystem α n k blocking).Run τ s)
    {as : List (PoolMove α n k)} (he : (poolDrain α n k blocking).exec s as = some (s', es)) :
    (poolWaitSystem α n k blocking).Run (τ ++ es) s' := by
  have hf : System.Forgets id (poolDrain α n k blocking) (poolWaitSystem α n k blocking) :=
    fun _ _ _ _ hn => drain_next hn
  exact h.exec (hf.exec he)

end

/-- From every reachable state of a pool, with at least one worker and any number of threads that add
jobs: if no thread calls `addJob` or the destructor any more, and none wakes up without a reason, then
there is a bound on the number of steps, whatever their order; and when no step is possible any more,
no thread is left in `addJob`, all jobs that were accepted have been run, and the destructor has
returned, if it was called. -/
theorem pool_completes {α : Type} {n k : Nat} {blocking : Bool} (hn : 0 < n)
    {τ : List (PoolEvent α n)} {s : PoolWaits α n k}
    (h : (poolWaitSystem α n k blocking).Run τ s) :
    (∃ N, ∀ as s' es, (poolDrain α n k blocking).exec s as = some (s', es) → as.length ≤ N) ∧
    ∀ as s' es, (poolDrain α n k blocking).exec s as = some (s', es) →
      (∀ x, (poolDrain α n k blocking).next s' x = none) →
      (acceptedJobs (τ ++ es)).Perm (ranJobs (τ ++ es)) ∧ (∀ t, s'.adding t = none) ∧
        (s'.pool.dtor = .notCalled ∨ s'.pool.dtor = .done) := by
  constructor
  · refine ⟨s.rank, fun as s' es he => ?_⟩
    refine exec_length_le (S := poolDrain α n k blocking)
      (B := fun s N => (poolWaitSystem α n k blocking).Reachable s ∧ s.rank = N) ?_
      ⟨⟨τ, h⟩, rfl⟩ he
    rintro s N x s' es ⟨⟨τ, hrun⟩, rfl⟩ hx
    obtain ⟨jobs, p, hc⟩ := Pool.counts_of_run hn (poolInv_run hn hrun).1
    exact ⟨_, drain_rank hc hx, ⟨_, hrun.step (drain_next hx)⟩, rfl⟩
  · intro as s' es he hstuck
    obtain ⟨hpool, hinv⟩ := poolInv_run hn (drain_run h he)
    obtain ⟨jobs, p, hc⟩ := Pool.counts_of_run hn hpool
    have hrest := hinv.atRest hn hc (joining_lt hpool) hstuck
    refine ⟨?_, hrest.adding, hrest.dtor⟩
    have hjobs : jobs = [] := by
      have hlen := congrArg List.length hc.queue
      simp [hrest.queue] at hlen
      exact List.eq_nil_of_length_eq_zero (by omega)
    have hidle : ∀ i, (s'.pool.workers i).jobs = 0 := by
      intro i
      cases hi : s'.pool.workers i with
      | running job => exact absurd hi (hrest.workers i job)
      | _ => rfl
    have hacc := hc.accepted
    simp only [hidle, hjobs, Finset.sum_const_zero, Multiset.coe_nil, add_zero] at hacc
    exact Multiset.coe_eq_coe.mp hacc

/-- One worker sleeps and one runs a job, when the destructor has put in one pill: it has waked up the
first worker. -/
theorem pool_completes_shutdown :
    ∃ (τ : List (PoolEvent Nat 2)) (s : PoolWaits Nat 2 1), (poolWaitSystem Nat 2 1 true).Run τ s ∧
      s.pool.dtor = .enqueuing 1 ∧ s.pool.workers 1 = .running 5 ∧
      ∀ as s' es, (poolDrain Nat 2 1 true).exec s as = some (s', es) →
        (∀ x, (poolDrain Nat 2 1 true).next s' x = none) →
        (acceptedJobs (τ ++ es)).Perm (ranJobs (τ ++ es)) := by
  obtain ⟨τ, s, hrun, hd, hw⟩ := System.exists_run (S := poolWaitSystem Nat 2 1 true)
    (s := .new Nat 2 1) (p := fun _ s => s.pool.dtor = .enqueuing 1 ∧ s.pool.workers 1 = .running 5)
    [.run (.worker 0) none, .run (.worker 1) none, .add 0 5, .run (.adder 0) (some (.worker 1)),
      .run (.worker 1) none, .destroy, .run .dtor (some (.worker 0))] rfl (by decide)
  exact ⟨τ, s, hrun, hd, hw, fun as s' es he hstuck =>
    ((pool_completes (by decide) hrun).2 as s' es he hstuck).1⟩

end Yfs.Rpc
