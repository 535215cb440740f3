import Yfs.Fs.Order
import Yfs.Lock.Completion

/-!
# The file system calls and the condition variables of the locks

`fsSystem` lets a thread that waits for a lock look again at any time. In `fsWaitSystem` each lock has
its condition variables with their wait sets, as in `wakeSystem`, and a thread that sleeps on one of
them takes no step until it is woken up. A request still finds a free handler thread at once; the pools
of handler threads come in `Yfs.Fs.Handlers`.

Suppose that nobody can go on. Then a thread that is in a call sleeps at a lock whose holder, in a call
of its own, sleeps at a second lock, and so does the holder of that one. By the order of the locks
there is no such holder, so no thread is in a call (`FsInv.at_rest`). There is one exception: a thread
that has thrown an exception never gives its locks back.
-/

namespace Yfs.Fs

open Yfs.Lib Yfs.Extents Function
open Yfs.Lock (Act ClientId Phase Pc LockState WakeState WakeInv Cond wakeSystem)
open Yfs.Rpc (Bytes)

structure FsWaits where
  fs : FsState
  /-- Who sleeps on the condition variables of a lock. -/
  waits : Inum → WaitSets Cond Act

inductive FsMove where
  | call (a : Act) (c : YfsCall)
  /-- Thread `a` takes a step in its request; a signal in it wakes `who` up. -/
  | step (a : Act) (x : CacheAction) (who : Option Act)
  | ret (a : Act)
  /-- Thread `a` wakes up at the lock `k` for no reason. -/
  | spurious (a : Act) (k : Inum)
  deriving DecidableEq, Repr

namespace FsWaits

variable (s : FsWaits)

/-- A lock with its wait sets. -/
def wake (k : Inum) : WakeState := ⟨(s.fs.world k).lock, s.waits k⟩

/-- The lock or the extent that a thread is busy with. -/
def focus (a : Act) : Option Inum := do
  let (_, p) ← s.fs.thread a
  let q ← p.request
  return q.id

/-- The wait sets of the lock `k` after a step that leaves the lock as `l`. Operations on the extent do
not touch them. -/
def waitsAfter (k : Inum) (who : Option Act) (l : LockState) :
    CacheAction → Option (WaitSets Cond Act)
  | .lock a =>
      if (s.wake k).asleep a then none
      else (s.waits k).step a ((s.fs.world k).lock.wakes a) who (l.cond a)
  | _ => some (s.waits k)

def next : FsMove → Option (FsWaits × List FsEvent)
  | .call a c => (s.fs.next (.call a c)).map fun r => ({ s with fs := r.1 }, r.2)
  | .step a x who => do
      let k ← s.focus a
      let (fs, es) ← s.fs.next (.step a x)
      let waits ← s.waitsAfter k who (fs.world k).lock x
      return (⟨fs, update s.waits k waits⟩, es)
  | .ret a => (s.fs.next (.ret a)).map fun r => ({ s with fs := r.1 }, r.2)
  | .spurious a k =>
      ((s.wake k).spurious a).map fun r => ({ s with waits := update s.waits k r.1.waits }, [])

end FsWaits

/-- All clients, with the extents `x` on the server before the run, and the condition variables of
their locks. -/
def fsWaitSystem (x : ExtentId → Option Extent) : System FsWaits FsMove FsEvent where
  init s := (fsSystem x).init s.fs ∧ s.waits = fun _ => .empty
  next := FsWaits.next

/-- The calls under way go on: nobody makes a new call, and nobody wakes up without a reason. -/
def fsDrain (x : ExtentId → Option Extent) : System FsWaits FsMove FsEvent where
  init := (fsWaitSystem x).Reachable
  next s
    | .step a x who => s.next (.step a x who)
    | .ret a => s.next (.ret a)
    | .call .. | .spurious .. => none

/-! ## What a step does -/

/-- Thread `a` takes the step `x` in its request `q`, which returns `ans` if the step is its last. -/
structure Steps (s s' : FsWaits) (a : Act) (x : CacheAction) (who : Option Act) (c : YfsCall)
    (p : Program) (q : ClientReq) (t : CacheState) (ans : Option Answer) : Prop where
  thread : s.fs.thread a = some (c, p)
  request : p.request = some q
  step : q.step a (s.fs.world q.id) x = some (t, ans)
  fs : s'.fs = (s.fs.setWorld q.id t).setThread a (some (c, ans.elim p fun r => p.resume r))
  waits : ∃ w, s.waitsAfter q.id who t.lock x = some w ∧ s'.waits = update s.waits q.id w

section

variable {s s' : FsWaits} {a b : Act} {x : CacheAction} {who : Option Act} {c : YfsCall}
  {p : Program} {q : ClientReq} {t : CacheState} {ans : Option Answer} {es : List FsEvent}
  {k : Inum} {y : ExtentId → Option Extent} {τ : List FsEvent}

theorem next_step (h : s.next (.step a x who) = some (s', es)) :
    es = [] ∧ s.fs.next (.step a x) = some (s'.fs, es) ∧
      ∃ c p q t ans, Steps s s' a x who c p q t ans := by
  simp only [FsWaits.next, FsWaits.focus, Option.bind_eq_bind, Option.bind_eq_some_iff] at h
  obtain ⟨k, ⟨⟨c, p⟩, ht, q, hq, hk⟩, ⟨fs, es'⟩, hfs, w, hw, h⟩ := h
  cases hk
  cases h
  have hstep := hfs
  simp only [FsState.next, Option.bind_eq_bind, Option.bind_eq_some_iff] at hstep
  obtain ⟨⟨c', p'⟩, ht', q', hq', ⟨t, ans⟩, hs, hstep⟩ := hstep
  rw [ht] at ht'
  cases ht'
  rw [hq] at hq'
  cases hq'
  cases hstep
  have hself : ((s.fs.setWorld q.id t).setThread a
      (some (c, ans.elim p fun r => p.resume r))).world q.id = t := update_self ..
  rw [hself] at hw
  exact ⟨rfl, hfs, c, p, q, t, ans, ht, hq, hs, rfl, w, hw, rfl⟩

/-- A thread whose request can take a step takes it, if it is awake. -/
theorem exists_next (ht : s.fs.thread a = some (c, p)) (hq : p.request = some q)
    (hs : q.step a (s.fs.world q.id) x = some (t, ans))
    (hawake : (s.wake q.id).asleep a = false) : ∃ who r, s.next (.step a x who) = some r := by
  have hact := (ClientReq.step_eq_some hs).1
  obtain ⟨who, w, hw⟩ : ∃ who w, s.waitsAfter q.id who t.lock x = some w := by
    cases x with
    | lock b =>
        obtain rfl : b = a := hact
        obtain ⟨who, w, hw⟩ := (s.waits q.id).exists_step ((s.fs.world q.id).lock.countP_wakes b) b
          (t.lock.cond b)
        exact ⟨who, w, by simp [FsWaits.waitsAfter, hawake, hw]⟩
    | _ => exact ⟨none, s.waits q.id, rfl⟩
  refine ⟨who, Option.isSome_iff_exists.mp ?_⟩
  simp [FsWaits.next, FsWaits.focus, FsState.next, ht, hq, hs, FsState.setThread, FsState.setWorld, hw]

namespace Steps

theorem wake_of_ne (h : Steps s s' a x who c p q t ans) (hk : k ≠ q.id) : s'.wake k = s.wake k := by
  obtain ⟨w, -, hw⟩ := h.waits
  have hworld : s'.fs.world k = s.fs.world k := by
    rw [h.fs]
    exact update_of_ne hk _ _
  unfold FsWaits.wake
  rw [hworld, hw, update_of_ne hk]

theorem world (h : Steps s s' a x who c p q t ans) : s'.fs.world q.id = t := by
  rw [h.fs]
  exact update_self ..

/-- At its lock the step is one of the lock protocol, or none. -/
theorem wake_cases (h : Steps s s' a x who c p q t ans) :
    (∃ les, x = .lock a ∧ (s.wake q.id).run a who = some (s'.wake q.id, les)) ∨
    (∀ b, x ≠ .lock b) ∧ s'.wake q.id = s.wake q.id := by
  obtain ⟨w, hw, hwaits⟩ := h.waits
  obtain ⟨rfl, -, es, hn, -⟩ := ClientReq.step_eq_some h.step
  have hwake : s'.wake q.id = ⟨t.lock, w⟩ := by
    unfold FsWaits.wake
    rw [h.world, hwaits, update_self]
  rw [hwake]
  rcases CacheState.next_cases hn with ⟨l, les, hx, hl, rfl, -⟩ | ⟨hx, hlock, -⟩
  · refine .inl ⟨les, hx, ?_⟩
    cases x with
    | lock b =>
        simp only [FsWaits.waitsAfter] at hw
        split at hw
        · cases hw
        · rename_i hawake
          exact WakeState.run_eq_some.mpr ⟨Bool.eq_false_iff.mpr hawake, hl, hw⟩
    | _ => cases hx
  · refine .inr ⟨hx, ?_⟩
    cases x with
    | lock b => exact absurd rfl (hx b)
    | _ =>
        cases hw
        rw [hlock]
        rfl

end Steps

/-- A call begins or returns, and nothing else happens. -/
theorem next_fs {f : FsAction} (hf : ∀ a x, f ≠ .step a x)
    (h : (s.fs.next f).map (fun r => (({ s with fs := r.1 } : FsWaits), r.2)) = some (s', es)) :
    s.fs.next f = some (s'.fs, es) ∧ s'.wake = s.wake := by
  obtain ⟨⟨fs, es'⟩, hn, heq⟩ := Option.map_eq_some_iff.mp h
  cases heq
  refine ⟨hn, ?_⟩
  have hworld : fs.world = s.fs.world := by
    cases f with
    | step a x => exact absurd rfl (hf a x)
    | call a c | ret a =>
        simp only [FsState.next] at hn
        split at hn <;> cases hn
        rfl
  funext k
  simp [FsWaits.wake, hworld]

theorem next_spurious (h : s.next (.spurious a k) = some (s', es)) :
    s'.fs = s.fs ∧ es = [] ∧ (∀ j, j ≠ k → s'.wake j = s.wake j) ∧
      ∃ les, (s.wake k).spurious a = some (s'.wake k, les) := by
  obtain ⟨⟨w, les⟩, hw, heq⟩ := Option.map_eq_some_iff.mp h
  cases heq
  refine ⟨rfl, rfl, fun j hj => ?_, les, ?_⟩
  · simp [FsWaits.wake, hj]
  · obtain ⟨c, -, -, rfl, -⟩ := WakeState.spurious_eq_some.mp hw
    rw [hw]
    simp [FsWaits.wake]

theorem fsWaits_run (h : (fsWaitSystem y).Run τ s) : (fsSystem y).Run τ s.fs := by
  induction h with
  | start hs => exact .start hs.1
  | @step τ s m s' es _ hn ih =>
      have hgo : ∀ f, s.fs.next f = some (s'.fs, es) → (fsSystem y).Run (τ ++ es) s'.fs := by
        intro f hf
        apply ih.step
        exact hf
      cases m with
      | step a x who => exact hgo _ (next_step hn).2.1
      | spurious a k =>
          obtain ⟨hfs, rfl, -⟩ := next_spurious hn
          rw [hfs, List.append_nil]
          exact ih
      | call a c => exact hgo _ (next_fs (by simp) hn).1
      | ret a => exact hgo _ (next_fs (by simp) hn).1

/-- Each lock goes through a run of its protocol. -/
theorem reachable_wake (h : (fsWaitSystem y).Reachable s) (k : Inum) :
    wakeSystem.Reachable (s.wake k) := by
  refine h.invariant (I := fun s => ∀ k, wakeSystem.Reachable (s.wake k)) ?_ ?_ k
  · rintro s ⟨⟨hworld, -⟩, hwaits⟩ k
    have hk : s.fs.world k = ⟨.initial, fun _ => none, y k, fun _ => .idle⟩ := hworld k
    refine ⟨[], .start ?_⟩
    show s.wake k = _
    rw [FsWaits.wake, hk, hwaits]
  · intro s m s' es ih hn k
    have hgo : ∀ act w les, wakeSystem.next (s.wake k) act = some (w, les) →
      wakeSystem.Reachable w := by
      intro act w les hnext
      obtain ⟨τ, hτ⟩ := ih k
      exact ⟨_, hτ.step hnext⟩
    cases m with
    | call a c =>
        rw [(next_fs (by simp) hn).2]
        exact ih k
    | ret a =>
        rw [(next_fs (by simp) hn).2]
        exact ih k
    | step a x who =>
        obtain ⟨-, -, c, p, q, t, ans, hstep⟩ := next_step hn
        by_cases hk : k = q.id
        · subst hk
          rcases hstep.wake_cases with ⟨les, -, hrun⟩ | ⟨-, heq⟩
          · exact hgo (.run a who) _ les hrun
          · rw [heq]
            exact ih q.id
        · rw [hstep.wake_of_ne hk]
          exact ih k
    | spurious a j =>
        obtain ⟨-, -, hother, les, hwake⟩ := next_spurious hn
        by_cases hk : k = j
        · subst hk
          exact hgo (.spurious a) _ les hwake
        · rw [hother k hk]
          exact ih k

end

/-! ## Where a thread is at a lock -/

/-- Where a thread that does `y` may be at the lock and the extent `k`. -/
inductive Place (y : Option (YfsCall × Program)) (k : Inum) : Pc → OpPc → Prop where
  | idle : Place y k .idle .idle
  | held : Place y k .holding .idle
  | getting {c : YfsCall} {f : Extents.Status → Bytes → Program} {o : OpPc} :
      y = some (c, .get k f) → o.getting = true → Place y k .holding o
  | acquiring {c : YfsCall} {p : Program} {pc : Pc} {o : OpPc} :
      y = some (c, .acquire k p) → pc.inAcquire = true → Place y k pc o
  | releasing {c : YfsCall} {p : Program} {q : Lock.RelPc} {o : OpPc} :
      y = some (c, .release k p) → Place y k (.releasing q) o

/-- A thread that has called `acquire` is inside it or has the lock. -/
theorem next_acquire {s s' : LockState} {a : Act} {es : List Lock.Event}
    (hp : s.pc a = .idle ∨ (s.pc a).inAcquire = true) (h : Lock.next s a = some (s', es)) :
    s'.pc a = .holding ∨ (s'.pc a).inAcquire = true := by
  have hleave : ∀ (t : LockState) r, (Lock.leaveAcquire t a r).1.pc a = .holding ∨
      ((Lock.leaveAcquire t a r).1.pc a).inAcquire = true := by
    intro t r
    have hpc : (Lock.leaveAcquire t a r).1.pc a = r.2.pc := update_self ..
    rw [hpc]
    cases r.2 <;> simp [Lock.AcquireNext.pc, Pc.inAcquire]
  have hin : ∀ (t : LockState) pc, pc.inAcquire = true → (t.setPc a pc).pc a = .holding ∨
      ((t.setPc a pc).pc a).inAcquire = true := by
    intro t pc hpc
    rw [show (t.setPc a pc).pc a = pc from update_self ..]
    exact .inr hpc
  unfold Lock.next at h
  cases hpc : s.pc a with
  | idle =>
      rw [hpc] at h
      cases h
      exact hleave _ _
  | waiting | waitingRelease | waitingRetry | acquireReply =>
      simp only [hpc, Option.bind_eq_bind, Option.bind_eq_some_iff] at h
      obtain ⟨l, -, h⟩ := h
      cases h
      exact hleave _ _
  | acquireCall =>
      simp only [hpc, Option.some.injEq, Prod.mk.injEq] at h
      obtain ⟨rfl, -⟩ := h
      apply hin
      cases (Lock.serverAcquire s.server a.1).2.2 <;> rfl
  | revoking holder ret p =>
      cases p with
      | call =>
          simp only [hpc] at h
          split at h
          · cases h
            exact hin _ _ rfl
          · cases h
            apply hin
            split <;> rfl
      | rel p =>
          simp only [hpc, Option.bind_eq_bind, Option.bind_eq_some_iff] at h
          obtain ⟨⟨t, q, es'⟩, -, h⟩ := h
          cases h
          apply hin
          cases q <;> rfl
  | holding | releasing => simp [hpc, Pc.inAcquire] at hp

section

variable {s s' : CacheState} {x : CacheAction} {a : Act} {id : Inum} {ans : Option Answer}
  {ph : ClientId → Phase} {d : Option Bytes}

/-- A step of `acquire` that is not its last. -/
theorem acquire_step (hp : s.lock.pc a = .idle ∨ (s.lock.pc a).inAcquire = true)
    (hc : CacheInv s ph d) (hs : (ClientReq.acquire id).step a s x = some (s', none)) :
    (s'.lock.pc a).inAcquire = true := by
  obtain ⟨rfl, -, es, hn, hans⟩ := ClientReq.step_eq_some hs
  have hnot : s'.lock.pc x.act ≠ .holding := by
    intro hpc
    simp [ClientReq.answer, hpc] at hans
  rcases CacheState.next_cases hn with ⟨l, les, -, hl, rfl, -⟩ | ⟨hx, hlock, -⟩
  · exact (next_acquire hp hl).resolve_left hnot
  · rw [hlock]
    refine hp.resolve_left fun hidle => ?_
    -- an idle thread is at no operation
    have hop := hc.idle x.act (by rw [hidle]; rfl)
    cases x with
    | lock b => exact hx b rfl
    | start b op now => simp [CacheState.next, show s.lock.pc b = .idle from hidle, Pc.site] at hn
    | serve b now => simp [CacheState.next, show s.op b = .idle from hop] at hn
    | finish b now => simp [CacheState.next, show s.lock.pc b = .idle from hidle, Pc.site] at hn

/-- When an operation has returned, the thread may call the next one. -/
theorem op_of_answer {r : Answer} (hp : s.lock.pc a = .holding) {q : ClientReq}
    (hq : (∃ id, q = .get id) ∨ ∃ id buf, q = .put id buf) (hs : q.step a s x = some (s', some r)) :
    s'.op a = .idle := by
  obtain ⟨rfl, hallows, es, hn, hans⟩ := ClientReq.step_eq_some hs
  have hans : s.answer x = some r := by
    rcases hq with ⟨id, rfl⟩ | ⟨id, buf, rfl⟩ <;> exact hans
  cases x with
  | lock b => cases hans
  | serve b now => cases hans
  | start b op now =>
      have hp : s.lock.pc b = .holding := hp
      simp only [CacheState.answer, CacheState.next, hp, Pc.site, Option.bind_eq_bind,
        Option.bind_some] at hans hn
      split at hn
      · split at hn
        · cases hn
          exact update_self ..
        · rename_i hcall
          simp [hcall] at hans
      · cases hn
  | finish b now =>
      have hp : s.lock.pc b = .holding := hp
      simp only [CacheState.next, hp, Pc.site, Option.bind_eq_bind, Option.bind_some] at hn
      split at hn
      · cases hn
        exact update_self ..
      · cases hn

end

section

variable {s s' : FsState} {l : FsLocked} {y : Atomic Act Inum (Option Bytes) YfsCall YfsResult}
  {a b : Act} {k : Inum} {c : YfsCall} {p : Program} {q : ClientReq} {x : CacheAction}
  {t : CacheState} {ans : Option Answer} {es : List FsEvent}

/-- A thread in `release` has the lock, or is giving it back. -/
theorem Abs.pc_release (h : Abs s l) (hsim : Sim (fun c => c.program.txn) l y)
    (ht : s.thread a = some (c, .release k p)) :
    (s.world k).lock.pc a = .holding ∨ ∃ q, (s.world k).lock.pc a = .releasing q := by
  have hthread := h.thread a
  rw [ht] at hthread
  generalize hl : l.thread a = z at hthread
  cases hthread with
  | same => exact .inl ((h.holder k a).mp (hsim.holds_release hl))
  | releasing hq => exact .inr ⟨_, hq⟩

/-- A thread in `get` has the lock. -/
theorem Abs.pc_get (h : Abs s l) (hsim : Sim (fun c => c.program.txn) l y)
    {f : Extents.Status → Bytes → Program} (ht : s.thread a = some (c, .get k f)) :
    (s.world k).lock.pc a = .holding := by
  have hthread := h.thread a
  rw [ht] at hthread
  generalize hl : l.thread a = z at hthread
  cases hthread with
  | same => exact (h.holder k a).mp (hsim.holds_read hl)

/-- A thread in `put` has the lock. -/
theorem Abs.pc_put (h : Abs s l) (hsim : Sim (fun c => c.program.txn) l y) {buf : Bytes}
    {f : Extents.Status → Program} (ht : s.thread a = some (c, .put k buf f)) :
    (s.world k).lock.pc a = .holding := by
  have hthread := h.thread a
  rw [ht] at hthread
  generalize hl : l.thread a = z at hthread
  cases hthread with
  | same =>
      refine (h.holder k a).mp ?_
      rcases hsim.disciplined hl with hp | ⟨r, hp⟩
      · simpa [Locked.held] using hp.1
      · exact hp.elim

theorem Place.acquire_pc {pc : Pc} {o : OpPc} (h : Place (some (c, .acquire k p)) k pc o)
    (hne : pc ≠ .holding) : pc = .idle ∨ pc.inAcquire = true := by
  cases h with
  | idle => exact .inl rfl
  | held => exact absurd rfl hne
  | getting => exact absurd rfl hne
  | acquiring _ hin => exact .inr hin
  | releasing hy => cases hy

/-- The thread that takes a step, at the lock or the extent of its request. -/
theorem Place.step (h : Abs s l) (hsim : Sim (fun c => c.program.txn) l y)
    (ht : s.thread a = some (c, p)) (hq : p.request = some q)
    (hplace : Place (some (c, p)) q.id ((s.world q.id).lock.pc a) ((s.world q.id).op a))
    (hs : q.step a (s.world q.id) x = some (t, ans)) :
    Place (some (c, ans.elim p fun r => p.resume r)) q.id (t.lock.pc a) (t.op a) := by
  obtain ⟨⟨ph, hinv⟩, -⟩ := h.cache q.id
  cases p with
  | ret r => cases hq
  | fault => cases hq
  | acquire k p =>
      cases hq
      obtain ⟨-, hgot⟩ := hinv.acquire hs
      obtain ⟨-, hallows, -⟩ := ClientReq.step_eq_some hs
      cases ans with
      | some r =>
          obtain ⟨hpc, hop⟩ := hgot rfl
          rw [hpc, hop]
          exact .held
      | none =>
          exact .acquiring rfl (acquire_step (hplace.acquire_pc (of_decide_eq_true hallows)) hinv hs)
  | release k p =>
      cases hq
      obtain ⟨ph', hinv'⟩ := hinv.release hs
      rcases release_step (h.pc_release hsim ht) hs with ⟨hans, hpc⟩ | ⟨rfl, q, hpc⟩
      · rw [hinv'.idle a (by rw [hpc]; rfl), hpc]
        exact .idle
      · rw [hpc]
        exact .releasing rfl
  | get k f =>
      cases hq
      have hpc := h.pc_get hsim ht
      obtain ⟨-, hpc', hget, -⟩ := hinv.get hpc (h.getting k a hpc) hs
      rw [hpc']
      cases ans with
      | none => exact .getting rfl hget
      | some r =>
          rw [op_of_answer hpc (.inl ⟨k, rfl⟩) hs]
          exact .held
  | put k buf f =>
      cases hq
      obtain ⟨-, hpc, hpc', rfl⟩ := hinv.put hs
      rw [hpc', op_of_answer hpc (.inr ⟨k, buf, rfl⟩) hs]
      exact .held

/-- What a thread does elsewhere does not show. -/
theorem Place.of_ne {st st' : Option (YfsCall × Program)} {pc : Pc} {o : OpPc}
    (h : Place st k pc o) (hst : ∀ c p q, st = some (c, p) → p.request = some q → q.id ≠ k) :
    Place st' k pc o := by
  cases h with
  | idle => exact .idle
  | held => exact .held
  | getting hy => exact absurd rfl (hst _ _ _ hy rfl)
  | acquiring hy => exact absurd rfl (hst _ _ _ hy rfl)
  | releasing hy => exact absurd rfl (hst _ _ _ hy rfl)

theorem place_run {x : ExtentId → Option Extent} {τ : List FsEvent} (h : (fsSystem x).Run τ s) (a : Act)
    (k : Inum) : Place (s.thread a) k ((s.world k).lock.pc a) ((s.world k).op a) := by
  induction h generalizing a k with
  | @start s hs =>
      obtain ⟨hworld, -⟩ := hs
      have hk : s.world k = ⟨.initial, fun _ => none, x k, fun _ => .idle⟩ := hworld k
      rw [hk]
      exact .idle
  | @step τ s act s' es hrun hn ih =>
      cases act with
      | call b c =>
          simp only [fsSystem, FsState.next] at hn
          split at hn <;> cases hn
          rename_i hb
          by_cases hab : a = b
          · subst hab
            refine (ih a k).of_ne fun c p q hst => ?_
            rw [hb] at hst
            cases hst
          · rw [show (s.setThread b (some (c, c.program))).thread a = s.thread a from
              update_of_ne hab _ _]
            exact ih a k
      | ret b =>
          simp only [fsSystem, FsState.next] at hn
          split at hn <;> cases hn
          rename_i c r hb
          by_cases hab : a = b
          · subst hab
            refine (ih a k).of_ne fun c p q hst hq => ?_
            rw [hb] at hst
            cases hst
            cases hq
          · rw [show (s.setThread b none).thread a = s.thread a from update_of_ne hab _ _]
            exact ih a k
      | step b x =>
          simp only [fsSystem, FsState.next, Option.bind_eq_bind, Option.bind_eq_some_iff] at hn
          obtain ⟨⟨c, p⟩, hb, q, hq, ⟨t, ans⟩, hs, hn⟩ := hn
          cases hn
          obtain ⟨l, hlocked, habs⟩ := exists_locked hrun
          obtain ⟨y, -, hsim⟩ := exists_sim growing_program run_program hlocked
          by_cases hab : a = b
          · subst hab
            rw [show ((s.setWorld q.id t).setThread a _).thread a =
              some (c, ans.elim p fun r => p.resume r) from update_self ..]
            by_cases hk : k = q.id
            · subst hk
              rw [show ((s.setWorld q.id t).setThread a _).world q.id = t from update_self ..]
              exact .step habs hsim hb hq (hb ▸ ih a q.id) hs
            · rw [show ((s.setWorld q.id t).setThread a _).world k = s.world k from
                update_of_ne hk _ _]
              refine (ih a k).of_ne fun c' p' q' hst hq' => ?_
              rw [hb] at hst
              cases hst
              rw [hq] at hq'
              cases hq'
              exact Ne.symm hk
          · rw [show ((s.setWorld q.id t).setThread b _).thread a = s.thread a from
              update_of_ne hab _ _]
            by_cases hk : k = q.id
            · subst hk
              rw [show ((s.setWorld q.id t).setThread b _).world q.id = t from update_self ..,
                (ClientReq.step_other hs hab).1, (ClientReq.step_other hs hab).2]
              exact ih a q.id
            · rw [show ((s.setWorld q.id t).setThread b _).world k = s.world k from
                update_of_ne hk _ _]
              exact ih a k

end

/-! ## Who can go on -/

section

variable {s : CacheState} {x : CacheAction} {a : Act} {q : ClientReq} {ph : ClientId → Phase}
  {d : Option Bytes}

/-- An RPC is answered, and its answer arrives. -/
theorem exists_next_of_op {c : ClientId} (hsite : (s.lock.pc a).site a = some c)
    (hidle : s.op a ≠ .idle) (hflushed : s.op a ≠ .flushed) :
    ∃ x, (x = .serve a 0 ∨ x = .finish a 0) ∧ (s.next x).isSome = true := by
  cases hop : s.op a with
  | idle => exact absurd hop hidle
  | flushed => exact absurd hop hflushed
  | calling p => exact ⟨_, .inl rfl, by simp [CacheState.next, hop]⟩
  | replying p r => exact ⟨_, .inr rfl, by simp [CacheState.next, hsite, hop]⟩

/-- Where an activity may be that works on a cached extent and does not hold the lock. -/
theorem opDone_of_site {c : ClientId} (hsite : (s.lock.pc a).site a = some c)
    (hp : s.lock.pc a ≠ .holding) : opDone (s.lock.pc a) = .flushed := by
  cases hpc : s.lock.pc a with
  | holding => exact absurd hpc hp
  | releasing q => cases q <;> simp_all [Pc.site, opDone]
  | revoking h ret q =>
      cases q with
      | call => simp [hpc, Pc.site] at hsite
      | rel q => cases q <;> simp_all [Pc.site, opDone]
  | _ => simp [hpc, Pc.site] at hsite

theorem opDone_of_no_site (hsite : (s.lock.pc a).site a = none) : opDone (s.lock.pc a) = .idle := by
  unfold opDone
  split
  · simp_all [Pc.site]
  · simp_all [Pc.site]
  · rfl

/-- An activity that does not hold the lock goes on in the lock protocol, or in the flush that it waits
for. -/
theorem exists_next_of_lock (hc : CacheInv s ph d) (hp : s.lock.pc a ≠ .holding)
    (hlock : ∃ l les, Lock.next s.lock a = some (l, les)) :
    ∃ x, x.act = a ∧ (s.next x).isSome = true := by
  obtain ⟨l, les, hlock⟩ := hlock
  have hgo : s.op a = opDone (s.lock.pc a) → ∃ x, x.act = a ∧ (s.next x).isSome = true := by
    intro hop
    exact ⟨.lock a, rfl, by simp [CacheState.next, hop, hlock]⟩
  cases hsite : (s.lock.pc a).site a with
  | none => exact hgo ((hc.idle a hsite).trans (opDone_of_no_site hsite).symm)
  | some c =>
      by_cases hidle : s.op a = .idle
      · refine ⟨.start a .flush 0, rfl, ?_⟩
        cases hstart : Op.flush.start (s.cache c) 0 <;>
          simp [CacheState.next, hsite, hidle, Op.allowed, hp, hstart]
      · by_cases hflushed : s.op a = .flushed
        · exact hgo (hflushed.trans (opDone_of_site hsite hp).symm)
        · obtain ⟨x, hx, hn⟩ := exists_next_of_op hsite hidle hflushed
          exact ⟨x, by rcases hx with rfl | rfl <;> rfl, hn⟩

end

/-- What a reachable state is like, and the locked store that goes with it. -/
structure FsInv (s : FsWaits) (l : FsLocked) : Prop where
  wake : ∀ k, WakeInv (s.wake k)
  abs : Abs s.fs l
  sim : ∃ y, Sim (fun c : YfsCall => c.program.txn) l y
  place : ∀ a k, Place (s.fs.thread a) k ((s.fs.world k).lock.pc a) ((s.fs.world k).op a)

/-- Thread `a` can take a step in its call, or return from it. -/
def FsWaits.GoesOn (s : FsWaits) (a : Act) : Prop :=
  (∃ r, s.next (.ret a) = some r) ∨ ∃ x who r, s.next (.step a x who) = some r

section

variable {s : FsWaits} {l : FsLocked} {a b : Act} {c : YfsCall} {p : Program} {k : Inum}
  {y : ExtentId → Option Extent} {τ : List FsEvent}

theorem fsInv_run (h : (fsWaitSystem y).Run τ s) :
    ∃ l, (lockedSystem (fun c : YfsCall => c.program.txn) fun i => (y i).map Extent.name).Run τ l ∧
      FsInv s l := by
  obtain ⟨l, hlocked, habs⟩ := exists_locked (fsWaits_run h)
  obtain ⟨z, -, hsim⟩ := exists_sim growing_program run_program hlocked
  refine ⟨l, hlocked, fun k => ?_, habs, ⟨z, hsim⟩, place_run (fsWaits_run h)⟩
  exact (Lock.wakeInv_reachable (reachable_wake ⟨τ, h⟩ k)).1

/-- A request that does not sleep goes on. -/
theorem FsWaits.GoesOn.of_request {q : ClientReq} {x : CacheAction} (ht : s.fs.thread a = some (c, p))
    (hq : p.request = some q) (hawake : (s.wake q.id).asleep a = false) (hact : x.act = a)
    (hallows : q.allows ((s.fs.world q.id).lock.pc a) x = true)
    (hn : ((s.fs.world q.id).next x).isSome = true) : s.GoesOn a := by
  obtain ⟨r, hr⟩ := Option.isSome_iff_exists.mp hn
  have hs : q.step a (s.fs.world q.id) x = some (r.1, q.answer a (s.fs.world q.id) r.1 x) := by
    rw [ClientReq.step, if_pos ⟨hact, hallows⟩, hr]
    rfl
  obtain ⟨who, r, hr⟩ := exists_next ht hq hs hawake
  exact .inr ⟨x, who, r, hr⟩

/-- A thread that is not in the middle of `get` is at no operation on an extent whose lock it holds. -/
theorem Place.op_idle {st : Option (YfsCall × Program)} {o : OpPc} (h : Place st k .holding o)
    (hst : ∀ c f, st ≠ some (c, .get k f)) : o = .idle := by
  cases h with
  | held => rfl
  | getting hy => exact absurd hy (hst _ _)
  | acquiring _ hin => cases hin

/-- A thread in a call goes on, unless it waits for a lock. -/
theorem FsInv.goesOn (h : FsInv s l) (ht : s.fs.thread a = some (c, p)) (hfault : p ≠ .fault)
    (hwait : ∀ k p', p = .acquire k p' → (s.wake k).asleep a = false ∧
      (s.fs.world k).lock.pc a ≠ .holding) : s.GoesOn a := by
  obtain ⟨z, hsim⟩ := h.sim
  have hlock : ∀ k, ∃ t les, Lock.next (s.fs.world k).lock a = some (t, les) := by
    intro k
    obtain ⟨⟨ph, hinv⟩, -⟩ := h.abs.cache k
    exact (h.wake k).exists_next hinv.lock a
  have hawake : ∀ {k pc}, (s.fs.world k).lock.pc a = pc → pc.cond a = none →
      (s.wake k).asleep a = false := by
    rintro k pc rfl hcond
    exact WakeState.awake_of_cond hcond
  have hidle : ∀ {k}, (s.fs.world k).lock.pc a = .holding → (∀ f, p ≠ .get k f) →
      (s.fs.world k).op a = .idle := by
    intro k hpc hget
    refine Place.op_idle (hpc ▸ h.place a k) fun c' f heq => ?_
    rw [ht] at heq
    cases heq
    exact hget f rfl
  cases p with
  | ret r => exact .inl ⟨_, by simp only [FsWaits.next, FsState.next, ht]; rfl⟩
  | fault => exact absurd rfl hfault
  | acquire k p =>
      obtain ⟨hup, hne⟩ := hwait k p rfl
      obtain ⟨⟨ph, hinv⟩, -⟩ := h.abs.cache k
      obtain ⟨x, hact, hn⟩ := exists_next_of_lock hinv hne (hlock k)
      exact .of_request ht rfl hup hact (by simp [ClientReq.allows, ClientReq.id, hne]) hn
  | release k p =>
      rcases h.abs.pc_release hsim ht with hpc | ⟨q, hpc⟩
      · obtain ⟨t, les, hl⟩ := hlock k
        have hop := hidle hpc (by simp)
        exact .of_request (x := .lock a) ht rfl (hawake hpc rfl) rfl rfl
          (by simp [CacheState.next, ClientReq.id, hop, hpc, opDone, hl])
      · obtain ⟨⟨ph, hinv⟩, -⟩ := h.abs.cache k
        have hne : (s.fs.world k).lock.pc a ≠ .holding := by simp [hpc]
        obtain ⟨x, hact, hn⟩ := exists_next_of_lock hinv hne (hlock k)
        refine .of_request ht rfl (hawake hpc rfl) hact ?_ hn
        cases x <;> simp [ClientReq.allows, ClientReq.id, hne]
  | get k f =>
      have hpc := h.abs.pc_get hsim ht
      have hsite : ((s.fs.world k).lock.pc a).site a = some a.1 := by
        rw [hpc]
        rfl
      by_cases hop : (s.fs.world k).op a = .idle
      · refine .of_request (x := .start a .get 0) ht rfl (hawake hpc rfl) rfl
          (by simp [ClientReq.allows]) ?_
        cases hstart : Op.get.start ((s.fs.world k).cache a.1) 0 <;>
          simp [CacheState.next, ClientReq.id, Pc.site, hop, hpc, Op.allowed, hstart]
      · have hget := h.abs.getting k a hpc
        have hflushed : (s.fs.world k).op a ≠ .flushed := by
          intro heq
          simp [heq, OpPc.getting] at hget
        obtain ⟨x, hx, hn⟩ := exists_next_of_op hsite hop hflushed
        rcases hx with rfl | rfl <;> exact .of_request ht rfl (hawake hpc rfl) rfl rfl hn
  | put k buf f =>
      have hpc := h.abs.pc_put hsim ht
      have hop := hidle hpc (by simp)
      exact .of_request (x := .start a (.put buf) 0) ht rfl (hawake hpc rfl) rfl
        (by simp [ClientReq.allows])
        (by simp [CacheState.next, ClientReq.id, hpc, Pc.site, hop, Op.allowed, Op.start, Extents.put])

/-- The holder of a lock is in a call. -/
theorem FsInv.thread_of_holder (h : FsInv s l) (hk : l.holder k = some a) :
    ∃ c p, s.fs.thread a = some (c, p) := by
  obtain ⟨z, hsim⟩ := h.sim
  have hthread := h.abs.thread a
  have hfollows := hsim.thread a
  cases hs : s.fs.thread a with
  | some cp => exact ⟨cp.1, cp.2, rfl⟩
  | none =>
      rw [hs] at hthread
      generalize l.thread a = w, z.thread a = v at hthread hfollows
      cases hthread
      cases hfollows with
      | idle hfree =>
          have := hfree k
          simp [Locked.held, hk] at this

/-- When nobody can go on, a lock for which a thread waits is held by a thread that waits too. -/
theorem FsInv.holder_waits (h : FsInv s l) (hstuck : ∀ a, ¬ s.GoesOn a)
    (hfault : ∀ a c, s.fs.thread a ≠ some (c, .fault))
    (ht : s.fs.thread a = some (c, .acquire k p)) :
    ∃ b d j q, l.holder k = some b ∧ s.fs.thread b = some (d, .acquire j q) := by
  have hwaits : ∀ {b d q}, s.fs.thread b = some (d, q) → ∃ j q', q = .acquire j q' ∧
      ((s.wake j).asleep b = true ∨ (s.fs.world j).lock.pc b = .holding) := by
    intro b d q hb
    by_contra hnot
    refine hstuck b (h.goesOn hb (fun heq => hfault b d (heq ▸ hb)) fun j q' hq => ?_)
    simp only [not_exists, not_and, not_or, Bool.not_eq_true] at hnot
    exact hnot j q' hq
  -- somebody at the lock is awake, and it is not a thread that waits there
  obtain ⟨b, hb⟩ : ∃ b, (s.fs.world k).lock.pc b = .holding := by
    obtain ⟨j, q, heq, hsleep | hpc⟩ := hwaits ht
    · cases heq
      obtain ⟨⟨ph, hinv⟩, -⟩ := h.abs.cache k
      obtain ⟨b, hne, hawake⟩ := (h.wake k).busy_of_asleep hinv.lock hsleep
      refine ⟨b, ?_⟩
      have hplace := h.place b k
      have hne : (s.fs.world k).lock.pc b ≠ .idle := hne
      generalize hpc : (s.fs.world k).lock.pc b = pc, (s.fs.world k).op b = o at hplace hne
      cases hplace with
      | idle => exact absurd rfl hne
      | held => rfl
      | getting => rfl
      | acquiring hy _ =>
          obtain ⟨i, r, heq, hb⟩ := hwaits hy
          cases heq
          rw [hawake] at hb
          exact hpc ▸ hb.resolve_left (by simp)
      | releasing hy =>
          obtain ⟨i, r, heq, -⟩ := hwaits hy
          cases heq
    · cases heq
      exact ⟨a, hpc⟩
  have hholder := (h.abs.holder k b).mpr hb
  obtain ⟨d, q, hbt⟩ := h.thread_of_holder hholder
  obtain ⟨j, q', rfl, -⟩ := hwaits hbt
  exact ⟨b, d, j, q', hholder, hbt⟩

/-- When nobody can go on, every call has returned. -/
theorem FsInv.at_rest (h : FsInv s l) (ho : Ordered τ l) (hstuck : ∀ a, ¬ s.GoesOn a)
    (hfault : ∀ a c, s.fs.thread a ≠ some (c, .fault)) (a : Act) : s.fs.thread a = none := by
  have hlocked : ∀ {b d j q}, s.fs.thread b = some (d, .acquire j q) →
      l.thread b = some (d, .acquire j q.txn) := by
    intro b d j q hb
    have hthread := h.abs.thread b
    rw [hb] at hthread
    generalize l.thread b = w at hthread
    cases hthread
    rfl
  by_contra hne
  obtain ⟨⟨c, p⟩, ht⟩ := Option.ne_none_iff_exists'.mp hne
  obtain ⟨k, q, rfl⟩ : ∃ k q, p = .acquire k q := by
    by_contra hnot
    refine hstuck a (h.goesOn ht (fun heq => hfault a c (heq ▸ ht)) fun k q hq => ?_)
    exact absurd ⟨k, q, hq⟩ hnot
  obtain ⟨b, d, j, r, hk, hb⟩ := h.holder_waits hstuck hfault ht
  obtain ⟨u, e, i, r', hj, hu⟩ := h.holder_waits hstuck hfault hb
  exact ho.holder_goes_on (hlocked hb) hk hj (hlocked hu)

end

end Yfs.Fs
