import Mathlib.Algebra.BigOperators.Fin
import Mathlib.Algebra.Order.BigOperators.Group.Finset
import Yfs.Lib.Refs
import Yfs.Lib.System

/-!
# The thread pool

`Fifo` is the bounded queue of `fifo.h`, and `Pool` a thread pool of `n` workers over it. A worker takes
a job from the queue and runs it, again and again, until it takes a poison pill. The destructor puts `n`
pills into the queue, waiting for space, and joins the workers one after the other. Jobs are added by
other threads until then.

A thread that waits on one of the conditions of the queue looks at the queue again whenever it wakes up;
a step that finds no space, or nothing to take, leaves everything as it is.

When all workers are joined, the jobs that were accepted are those that were run, every worker has
taken one pill, and the queue is empty (`shutdown_drains`). Jobs, pills and workers are counted over the
whole run: no pill comes before a job in the queue, and a worker leaves with each pill.
-/

namespace Yfs.Rpc

open Yfs.Lib

/-! ## The queue -/

/-- `fifo`. -/
structure Fifo (α : Type) where
  q : List α
  /-- The capacity; 0 says that there is no limit. -/
  max : Nat
  deriving DecidableEq, Repr

namespace Fifo

variable {α : Type}

/-- One round of the loop in `enq`. -/
def enq (f : Fifo α) (e : α) : Option (Fifo α) :=
  if f.max = 0 ∨ f.q.length < f.max then some { f with q := f.q ++ [e] } else none

/-- One round of the loop in `deq`. -/
def deq (f : Fifo α) : Option (α × Fifo α) :=
  match f.q with
  | [] => none
  | e :: q => some (e, { f with q })

end Fifo

/-! ## The pool -/

/-- Where a worker is. -/
inductive WorkerPc (α : Type) where
  /-- In `takeJob`. -/
  | taking
  | running (job : α)
  | exited
  deriving DecidableEq, Repr

/-- Where the destructor is. -/
inductive DtorPc where
  | notCalled
  /-- Before pill `i` is in the queue. -/
  | enqueuing (i : Nat)
  /-- Before worker `i` is joined. -/
  | joining (i : Nat)
  | done
  deriving DecidableEq, Repr

/-- `ThrPool`. A job in the queue is `some`, and a pill, which has no function, `none`. -/
structure Pool (α : Type) (n : Nat) where
  jobq : Fifo (Option α)
  workers : Fin n → WorkerPc α
  dtor : DtorPc

inductive PoolAction (α : Type) (n : Nat) where
  | addJob (job : α)
  | takeJob (i : Fin n)
  /-- The job of worker `i` returns. -/
  | finish (i : Fin n)
  | destroy
  /-- The destructor tries to put in a pill. -/
  | pill
  | join

inductive PoolEvent (α : Type) (n : Nat) where
  | accepted (job : α)
  | ran (job : α)
  /-- Worker `i` takes a pill. -/
  | pill (i : Fin n)
  deriving DecidableEq, Repr

namespace Pool

variable {α : Type} {n : Nat}

/-- `ThrPool::ThrPool`. -/
def new (α : Type) (n : Nat) : Pool α n where
  jobq := { q := [], max := 100 * n }
  workers := fun _ => .taking
  dtor := .notCalled

/-- The destructor's second loop at worker `i`. -/
def joinFrom (n i : Nat) : DtorPc := if i < n then .joining i else .done

/-- The destructor's first loop at pill `i`. -/
def enqueueFrom (n i : Nat) : DtorPc := if i < n then .enqueuing i else joinFrom n 0

def next (s : Pool α n) : PoolAction α n → Option (Pool α n × List (PoolEvent α n))
  | .addJob job =>
      if s.dtor = .notCalled then
        match s.jobq.enq (some job) with
        | some jobq => some ({ s with jobq }, [.accepted job])
        -- `addJob` waits, or returns false
        | none => some (s, [])
      else none
  | .takeJob i =>
      match s.workers i with
      | .taking =>
          match s.jobq.deq with
          | some (some job, jobq) =>
              some ({ s with jobq, workers := Function.update s.workers i (.running job) }, [])
          | some (none, jobq) =>
              some ({ s with jobq, workers := Function.update s.workers i .exited }, [.pill i])
          | none => some (s, [])
      | _ => none
  | .finish i =>
      match s.workers i with
      | .running job => some ({ s with workers := Function.update s.workers i .taking }, [.ran job])
      | _ => none
  | .destroy => if s.dtor = .notCalled then some ({ s with dtor := enqueueFrom n 0 }, []) else none
  | .pill =>
      match s.dtor with
      | .enqueuing i =>
          match s.jobq.enq none with
          | some jobq => some ({ s with jobq, dtor := enqueueFrom n (i + 1) }, [])
          | none => some (s, [])
      | _ => none
  | .join =>
      match s.dtor with
      | .joining i =>
          if h : i < n then
            match s.workers ⟨i, h⟩ with
            | .exited => some ({ s with dtor := joinFrom n (i + 1) }, [])
            | _ => none
          else none
      | _ => none

end Pool

/-- A pool of `n` threads. -/
def poolSystem (α : Type) (n : Nat) : System (Pool α n) (PoolAction α n) (PoolEvent α n) where
  init s := s = .new α n
  next := Pool.next

/-- The jobs that were accepted. -/
def acceptedJobs {α : Type} {n : Nat} (τ : List (PoolEvent α n)) : List α :=
  τ.filterMap fun e => match e with
    | .accepted job => some job
    | _ => none

/-- The jobs that were run. -/
def ranJobs {α : Type} {n : Nat} (τ : List (PoolEvent α n)) : List α :=
  τ.filterMap fun e => match e with
    | .ran job => some job
    | _ => none

/-- The number of pills that worker `i` has taken. -/
def pillsOf {α : Type} {n : Nat} (i : Fin n) (τ : List (PoolEvent α n)) : Nat :=
  τ.countP fun e => match e with
    | .pill j => j = i
    | _ => false

/-! ## Counting -/

/-- The job that a worker has. -/
def WorkerPc.jobs {α : Type} : WorkerPc α → Multiset α
  | .running job => {job}
  | _ => 0

/-- 1 if the worker has exited. -/
def WorkerPc.gone {α : Type} : WorkerPc α → Nat
  | .exited => 1
  | _ => 0

/-- The pills that the destructor has put into the queue. -/
def DtorPc.pills (n : Nat) : DtorPc → Nat
  | notCalled => 0
  | enqueuing i => i
  | joining _ | done => n

namespace Pool

variable {α : Type} {n : Nat} {s s' : Pool α n} {a : PoolAction α n} {τ es : List (PoolEvent α n)}
  {jobs : List α} {k : Nat}

/-- The workers that the destructor has joined have exited. -/
def JoinOk (workers : Fin n → WorkerPc α) : DtorPc → Prop
  | .notCalled => True
  | .enqueuing i => i < n
  | .joining i => ∀ j : Fin n, j.1 < i → workers j = .exited
  | .done => ∀ j, workers j = .exited

/-- The queue has `jobs` and after them `k` pills. Each pill that was put in is there or was taken by a
worker that has exited; each job that was accepted is there, is being run or was run. -/
structure Counts (τ : List (PoolEvent α n)) (s : Pool α n) (jobs : List α) (k : Nat) : Prop where
  queue : s.jobq.q = jobs.map some ++ List.replicate k none
  max : s.jobq.max = 100 * n
  bound : s.jobq.q.length ≤ 100 * n
  pills : k + ∑ i, (s.workers i).gone = s.dtor.pills n
  order : jobs ≠ [] → ∀ i, (s.workers i).gone = 0
  accepted : (acceptedJobs τ : Multiset α) = (ranJobs τ + ∑ i, (s.workers i).jobs) + jobs
  taken : ∀ i, pillsOf i τ = (s.workers i).gone
  joined : JoinOk s.workers s.dtor

/-- Workers that have exited stay so. -/
theorem JoinOk.update {workers : Fin n → WorkerPc α} {dtor : DtorPc} (h : JoinOk workers dtor)
    {i : Fin n} (hi : workers i ≠ .exited) (pc : WorkerPc α) :
    JoinOk (Function.update workers i pc) dtor := by
  cases dtor with
  | notCalled | enqueuing => exact h
  | joining k =>
      intro j hj
      have hne : j ≠ i := by
        rintro rfl
        exact hi (h j hj)
      rw [Function.update_of_ne hne]
      exact h j hj
  | done => exact absurd (h i) hi

theorem enq_cases {f f' : Fifo (Option α)} {e : Option α} (hmax : f.max = 100 * n) (hn : 0 < n)
    (h : f.enq e = some f') : f'.q = f.q ++ [e] ∧ f'.max = f.max ∧ f.q.length < 100 * n := by
  unfold Fifo.enq at h
  split at h
  · rename_i hspace
    cases h
    exact ⟨rfl, rfl, by omega⟩
  · cases h

theorem gone_eq_zero (h : ∑ i, (s.workers i).gone = 0) (i : Fin n) : (s.workers i).gone = 0 :=
  Finset.sum_eq_zero_iff.mp h i (Finset.mem_univ i)

/-- A job is added behind the others; there are no pills yet. -/
theorem Counts.addJob (h : Counts τ s jobs k) (hn : 0 < n) (hd : s.dtor = .notCalled) {job : α}
    {jobq : Fifo (Option α)} (hq : s.jobq.enq (some job) = some jobq) :
    Counts (τ ++ [.accepted job]) { s with jobq } (jobs ++ [job]) k := by
  have hpills := h.pills
  rw [hd, DtorPc.pills] at hpills
  obtain ⟨hk, hgone⟩ := Nat.add_eq_zero_iff.mp hpills
  obtain ⟨hq', hmax, hlt⟩ := enq_cases h.max hn hq
  refine { h with queue := ?_, max := hmax.trans h.max, bound := ?_, order := ?_,
                  accepted := ?_, taken := ?_ }
  · show jobq.q = _
    rw [hq', h.queue, hk]
    simp
  · show jobq.q.length ≤ _
    rw [hq', List.length_append]
    exact hlt
  · exact fun _ => gone_eq_zero hgone
  · have hacc : acceptedJobs (τ ++ [PoolEvent.accepted job]) = acceptedJobs τ ++ [job] := by
      simp [acceptedJobs]
    have hran : ranJobs (τ ++ [PoolEvent.accepted job]) = ranJobs τ := by simp [ranJobs]
    rw [hacc, hran, ← Multiset.coe_add, h.accepted, ← Multiset.coe_add]
    exact add_assoc _ _ _
  · intro i
    rw [← h.taken i]
    simp [pillsOf]

theorem deq_cases {f f' : Fifo (Option α)} {e : Option α} (h : f.deq = some (e, f')) :
    f.q = e :: f'.q ∧ f'.max = f.max := by
  unfold Fifo.deq at h
  split at h
  · cases h
  · rename_i hq
    cases h
    exact ⟨hq, rfl⟩

/-- Worker `i` goes from `pc` to `pc'`, with what it takes from the queue and what it emits. -/
theorem Counts.worker (h : Counts τ s jobs k) {i : Fin n} {pc pc' : WorkerPc α} (hi : s.workers i = pc)
    (hpc : pc ≠ .exited) {jobq : Fifo (Option α)} {jobs' : List α} {k' : Nat}
    (hqueue : jobq.q = jobs'.map some ++ List.replicate k' none) (hmax : jobq.max = s.jobq.max)
    (hlen : jobq.q.length ≤ s.jobq.q.length) (hk : k' + pc'.gone = k)
    (horder : jobs' ≠ [] → jobs ≠ [] ∧ pc'.gone = 0) (hacc : acceptedJobs es = [])
    (hjobs : pc.jobs + jobs = ranJobs es + pc'.jobs + (jobs' : Multiset α))
    (htaken : ∀ j, pillsOf j es = if j = i then pc'.gone else 0) :
    Counts (τ ++ es) { s with jobq, workers := Function.update s.workers i pc' } jobs' k' := by
  have hgone : pc.gone = 0 := by
    cases pc with
    | exited => exact absurd rfl hpc
    | _ => rfl
  refine { queue := hqueue, max := hmax.trans h.max, bound := hlen.trans h.bound,
           pills := ?_, order := ?_, accepted := ?_, taken := ?_, joined := h.joined.update (hi ▸ hpc) pc' }
  · have hsum := sum_update WorkerPc.gone s.workers i pc'
    rw [hi, hgone] at hsum
    have hpills := h.pills
    show k' + ∑ j, (Function.update s.workers i pc' j).gone = s.dtor.pills n
    omega
  · intro hne j
    obtain ⟨hne', hzero⟩ := horder hne
    by_cases hj : j = i
    · subst hj
      simpa using hzero
    · simpa [hj] using h.order hne' j
  · have hsum := sum_update WorkerPc.jobs s.workers i pc'
    rw [hi] at hsum
    have haccepted : acceptedJobs (τ ++ es) = acceptedJobs τ := by
      rw [acceptedJobs, List.filterMap_append]
      exact (congrArg (acceptedJobs τ ++ ·) hacc).trans (List.append_nil _)
    have hran : (ranJobs (τ ++ es) : Multiset α) = ranJobs τ + ranJobs es := by
      rw [ranJobs, List.filterMap_append, ← Multiset.coe_add]
      rfl
    rw [haccepted, hran]
    -- the job that worker `i` had is on both sides
    apply add_right_cancel (b := pc.jobs)
    show _ = _ + ∑ j, (Function.update s.workers i pc' j).jobs + _ + _
    calc (acceptedJobs τ : Multiset α) + pc.jobs
        = (ranJobs τ + ∑ j, (s.workers j).jobs) + (pc.jobs + jobs) := by rw [h.accepted]; ac_rfl
      _ = (ranJobs τ + ∑ j, (s.workers j).jobs) + (ranJobs es + pc'.jobs + jobs') := by rw [hjobs]
      _ = ranJobs τ + ranJobs es + ((∑ j, (s.workers j).jobs) + pc'.jobs) + jobs' := by ac_rfl
      _ = ranJobs τ + ranJobs es +
        ((∑ j, (Function.update s.workers i pc' j).jobs) + pc.jobs) + jobs' := by
          rw [hsum]
      _ = _ := by ac_rfl
  · intro j
    have hcount : pillsOf j (τ ++ es) = pillsOf j τ + pillsOf j es := List.countP_append
    rw [hcount, h.taken j, htaken j]
    by_cases hj : j = i
    · subst hj
      simp [hi, hgone]
    · simp [hj]

/-- The first job is taken. -/
theorem Counts.takeJob (h : Counts τ s jobs k) {i : Fin n} (hi : s.workers i = .taking) {job : α}
    {jobq : Fifo (Option α)} (hq : s.jobq.deq = some (some job, jobq)) :
    ∃ jobs', Counts (τ ++ []) { s with jobq, workers := Function.update s.workers i (.running job) }
      jobs' k := by
  obtain ⟨hq', hmax⟩ := deq_cases hq
  have hqueue := h.queue
  rw [hq'] at hqueue
  cases jobs with
  | nil => cases k <;> simp [List.replicate_succ] at hqueue
  | cons j jobs =>
      obtain ⟨heq, hrest⟩ := List.cons.inj hqueue
      cases heq
      refine ⟨jobs, h.worker hi (by simp) hrest hmax ?_ rfl ?_ rfl ?_ ?_⟩
      · rw [hq']
        exact Nat.le_succ _
      · exact fun _ => ⟨by simp, rfl⟩
      · simp [WorkerPc.jobs, ranJobs]
      · intro j
        simp [pillsOf, WorkerPc.gone]

/-- A pill is taken, so no jobs are left. -/
theorem Counts.takePill (h : Counts τ s jobs k) {i : Fin n} (hi : s.workers i = .taking)
    {jobq : Fifo (Option α)} (hq : s.jobq.deq = some (none, jobq)) :
    ∃ k', Counts (τ ++ [.pill i])
      { s with jobq, workers := Function.update s.workers i .exited } [] k' := by
  obtain ⟨hq', hmax⟩ := deq_cases hq
  have hqueue := h.queue
  rw [hq'] at hqueue
  cases jobs with
  | cons j jobs => simp at hqueue
  | nil =>
      cases k with
      | zero => simp at hqueue
      | succ k =>
          obtain ⟨-, hrest⟩ := List.cons.inj hqueue
          refine ⟨k, h.worker hi (by simp) hrest hmax ?_ rfl ?_ rfl ?_ ?_⟩
          · rw [hq']
            exact Nat.le_succ _
          · exact fun hne => absurd rfl hne
          · simp [WorkerPc.jobs, ranJobs]
          · intro j
            simp [pillsOf, WorkerPc.gone, eq_comm]

/-- A job has been run. -/
theorem Counts.finish (h : Counts τ s jobs k) {i : Fin n} {job : α} (hi : s.workers i = .running job) :
    Counts (τ ++ [.ran job]) { s with workers := Function.update s.workers i .taking } jobs k := by
  refine h.worker hi (by simp) h.queue rfl (Nat.le_refl _) rfl (fun hne => ⟨hne, rfl⟩) rfl ?_ ?_
  · simp [WorkerPc.jobs, ranJobs]
  · intro j
    simp [pillsOf, WorkerPc.gone]

/-- The destructor goes on. -/
theorem Counts.dtor (h : Counts τ s jobs k) {dtor : DtorPc} (hpills : dtor.pills n = s.dtor.pills n)
    (hjoin : JoinOk s.workers dtor) : Counts (τ ++ []) { s with dtor } jobs k := by
  rw [List.append_nil]
  exact { h with pills := h.pills.trans hpills.symm, joined := hjoin }

theorem joinFrom_ok (workers : Fin n → WorkerPc α) {i : Nat}
    (h : ∀ j : Fin n, j.1 < i → workers j = .exited) :
    (joinFrom n i).pills n = n ∧ JoinOk workers (joinFrom n i) := by
  unfold joinFrom
  split
  · exact ⟨rfl, h⟩
  · exact ⟨rfl, fun j => h j (by omega)⟩

theorem enqueueFrom_ok (workers : Fin n → WorkerPc α) {i : Nat} (hi : i ≤ n) :
    (enqueueFrom n i).pills n = i ∧ JoinOk workers (enqueueFrom n i) := by
  unfold enqueueFrom
  split
  · exact ⟨rfl, ‹_›⟩
  · have h := joinFrom_ok workers (i := 0) (by simp)
    exact ⟨by omega, h.2⟩

/-- A pill is put in behind everything else. -/
theorem Counts.pill (h : Counts τ s jobs k) (hn : 0 < n) {i : Nat} (hd : s.dtor = .enqueuing i)
    {jobq : Fifo (Option α)} (hq : s.jobq.enq none = some jobq) :
    Counts (τ ++ []) { s with jobq, dtor := enqueueFrom n (i + 1) } jobs (k + 1) := by
  have hi : i < n := by
    have := h.joined
    rwa [hd] at this
  obtain ⟨hq', hmax, hlt⟩ := enq_cases h.max hn hq
  obtain ⟨hpills, hjoin⟩ := enqueueFrom_ok s.workers (Nat.succ_le_of_lt hi)
  rw [List.append_nil]
  refine { h with queue := ?_, max := hmax.trans h.max, bound := ?_, pills := ?_, joined := hjoin }
  · show jobq.q = _
    rw [hq', h.queue, List.replicate_succ', List.append_assoc]
  · show jobq.q.length ≤ _
    rw [hq', List.length_append]
    exact hlt
  · have hsum := h.pills
    rw [hd, DtorPc.pills] at hsum
    show k + 1 + ∑ j, (s.workers j).gone = _
    rw [hpills]
    omega

theorem counts_next (hn : 0 < n) (h : Counts τ s jobs k) (hnext : s.next a = some (s', es)) :
    ∃ jobs' k', Counts (τ ++ es) s' jobs' k' := by
  have hsame : Counts (τ ++ []) s jobs k := by rwa [List.append_nil]
  cases a with
  | addJob job =>
      simp only [Pool.next] at hnext
      split at hnext
      · rename_i hd
        split at hnext
        · rename_i hq
          cases hnext
          exact ⟨_, _, h.addJob hn hd hq⟩
        · cases hnext
          exact ⟨_, _, hsame⟩
      · cases hnext
  | takeJob i =>
      simp only [Pool.next] at hnext
      split at hnext
      · rename_i hi
        split at hnext
        · rename_i hq
          cases hnext
          obtain ⟨jobs', h'⟩ := h.takeJob hi hq
          exact ⟨_, _, h'⟩
        · rename_i hq
          cases hnext
          obtain ⟨k', h'⟩ := h.takePill hi hq
          exact ⟨_, _, h'⟩
        · cases hnext
          exact ⟨_, _, hsame⟩
      · cases hnext
  | finish i =>
      simp only [Pool.next] at hnext
      split at hnext
      · rename_i hi
        cases hnext
        exact ⟨_, _, h.finish hi⟩
      · cases hnext
  | destroy =>
      simp only [Pool.next] at hnext
      split at hnext
      · rename_i hd
        cases hnext
        obtain ⟨hpills, hjoin⟩ := enqueueFrom_ok s.workers (Nat.zero_le n)
        exact ⟨_, _, h.dtor (hpills.trans (by rw [hd]; rfl)) hjoin⟩
      · cases hnext
  | pill =>
      simp only [Pool.next] at hnext
      split at hnext
      · rename_i hd
        split at hnext
        · rename_i hq
          cases hnext
          exact ⟨_, _, h.pill hn hd hq⟩
        · cases hnext
          exact ⟨_, _, hsame⟩
      · cases hnext
  | join =>
      simp only [Pool.next] at hnext
      split at hnext
      · rename_i i hd
        split at hnext
        · rename_i hi
          split at hnext
          · rename_i hexit
            cases hnext
            have hjoined := h.joined
            rw [hd] at hjoined
            obtain ⟨hpills, hjoin⟩ := joinFrom_ok s.workers (i := i + 1) fun j hj => by
              rcases Nat.lt_succ_iff_lt_or_eq.mp hj with hlt | heq
              · exact hjoined j hlt
              · rw [show j = ⟨i, hi⟩ from Fin.ext heq]
                exact hexit
            exact ⟨_, _, h.dtor (hpills.trans (by rw [hd]; rfl)) hjoin⟩
          · cases hnext
        · cases hnext
      · cases hnext

theorem counts_of_run (hn : 0 < n) (h : (poolSystem α n).Run τ s) : ∃ jobs k, Counts τ s jobs k := by
  refine h.invariant (I := fun τ s => ∃ jobs k, Counts τ s jobs k) ?_ ?_
  · rintro s rfl
    refine ⟨[], 0, rfl, rfl, Nat.zero_le _, ?_, fun _ _ => rfl, ?_, fun _ => rfl, trivial⟩
    · simp [Pool.new, WorkerPc.gone, DtorPc.pills]
    · simp [Pool.new, WorkerPc.jobs, acceptedJobs, ranJobs]
  · rintro τ s a s' es ⟨jobs, k, h⟩ hnext
    exact counts_next hn h hnext

end Pool

/-- The queue never has more than `100 * n` entries; and when the destructor has joined all workers, the
queue is empty, the jobs that were accepted are those that were run, and every worker has taken one
pill. -/
theorem shutdown_drains {α : Type} {n : Nat} (hn : 0 < n) {τ : List (PoolEvent α n)} {s : Pool α n}
    (h : (poolSystem α n).Run τ s) :
    s.jobq.q.length ≤ 100 * n ∧
    (s.dtor = .done → s.jobq.q = [] ∧ (acceptedJobs τ).Perm (ranJobs τ) ∧ ∀ i, pillsOf i τ = 1) := by
  obtain ⟨jobs, k, hc⟩ := Pool.counts_of_run hn h
  refine ⟨hc.bound, fun hdone => ?_⟩
  have hexit : ∀ i, s.workers i = .exited := by
    have := hc.joined
    rwa [hdone] at this
  have hpills := hc.pills
  have hjobs : jobs = [] := by
    by_contra hne
    have := hc.order hne ⟨0, hn⟩
    simp [hexit, WorkerPc.gone] at this
  simp only [hexit, WorkerPc.gone, hdone, DtorPc.pills, Finset.sum_const, Finset.card_univ,
    Fintype.card_fin, smul_eq_mul, mul_one] at hpills
  obtain rfl : k = 0 := by omega
  refine ⟨?_, ?_, fun i => ?_⟩
  · rw [hc.queue, hjobs]
    rfl
  · have hacc := hc.accepted
    simp only [hexit, WorkerPc.jobs, hjobs, Finset.sum_const_zero, Multiset.coe_nil, add_zero] at hacc
    exact Multiset.coe_eq_coe.mp hacc
  · rw [hc.taken i, hexit i]
    rfl

/-- Two workers and three jobs. -/
theorem shutdown_drains_two :
    ∃ (τ : List (PoolEvent Nat 2)) (s : Pool Nat 2), (poolSystem Nat 2).Run τ s ∧ s.dtor = .done ∧
      (acceptedJobs τ).Perm (ranJobs τ) ∧ ∀ i, pillsOf i τ = 1 := by
  obtain ⟨τ, s, hrun, hdone⟩ := (poolSystem Nat 2).exists_run (p := fun _ s => s.dtor = .done)
    [.addJob 1, .addJob 2, .takeJob 0, .addJob 3, .takeJob 1, .destroy, .pill, .finish 0, .takeJob 0,
      .finish 1, .pill, .takeJob 1, .finish 0, .takeJob 0, .join, .join] rfl (by decide)
  have h := (shutdown_drains (by decide) hrun).2 hdone
  exact ⟨τ, s, hrun, hdone, h.2.1, h.2.2⟩

end Yfs.Rpc
