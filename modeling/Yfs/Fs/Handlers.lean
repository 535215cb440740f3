import Mathlib.Data.Finset.Prod
import Mathlib.Data.Fintype.Defs
import Yfs.Fs.Completion

/-!
# The handler threads of the lock protocol

An `rpcs` runs its handlers in a pool of ten threads, and a request waits until one of them is free. A
handler keeps its thread while it waits for an RPC of its own: `lock_server_cache::acquire` for its
revoke, the handler of the revoke for its release, and `lock_server_cache::release` for its retry. In
`fsPoolSystem n` the lock server and every client have `n` handler threads. (The handlers of the extent
server wait for nobody, and its pool is left out.)

With bounded pools it is no longer true that every call returns. When `n` acquires wait for their
revokes, the lock server has no thread left for the releases that they wait for, and nothing happens
any more until the RPCs time out (`acquires_stand_still`). There is no other way in which the pools
can bring the calls to a halt (`yfs_completes`). A client may run out of handler threads too, but each
of its handlers goes with an acquire that has a thread of the lock server; so if all `n` of them wait,
the lock server has no room for a handler of a release.
-/

namespace Yfs.Fs

open Yfs.Lib Yfs.Extents Function
open Yfs.Lock (Act ClientId Pc RelPc RevPc LockState WakeState)
open Yfs.Rpc (Bytes)

/-! ## Handlers -/

/-- Who has a pool of handler threads. -/
inductive Host where
  | server
  | client (c : ClientId)
  deriving DecidableEq, Repr

/-- The handlers of the lock protocol. -/
inductive Handler where
  | acquire
  | release
  | revoke
  | retry
  deriving DecidableEq, Repr

instance fintypeHandler : Fintype Handler where
  elems := {.acquire, .release, .revoke, .retry}
  complete r := by cases r <;> decide

/-- The handler that starts with the next section of a release. -/
def relBegins : RelPc → Option (Host × Handler)
  | .call => some (.server, .release)
  | .retry addr => some (.client addr, .retry)
  | .flush | .reply => none

/-- The handler that starts with the next section of a thread. -/
def begins : Pc → Option (Host × Handler)
  | .acquireCall => some (.server, .acquire)
  | .revoking holder _ .call => some (.client holder, .revoke)
  | .revoking _ _ (.rel p) => relBegins p
  | .releasing p => relBegins p
  | _ => none

/-- Where a handler waits for an RPC of its own, on behalf of a thread at a place in the code. -/
def waitsAt : Pc → Handler → Option Host
  | .revoking .., .acquire => some .server
  | .revoking holder _ (.rel _), .revoke => some (.client holder)
  | .revoking _ _ (.rel (.retry _)), .release => some .server
  | .releasing (.retry _), .release => some .server
  | _, _ => none

/-- Where a thread is in the lock protocol. -/
def FsWaits.pc (s : FsWaits) (a : Act) : Pc :=
  (s.focus a).elim .idle fun k => (s.fs.world k).lock.pc a

structure FsPools where
  waits : FsWaits
  /-- The threads that are in a call. -/
  active : Finset Act

namespace FsPools

variable (s : FsPools)

/-- The handlers that have a thread of a pool, each with the thread on whose behalf it runs. -/
def busy (h : Host) : Finset (Act × Handler) :=
  (s.active ×ˢ Finset.univ).filter fun x => waitsAt (s.waits.pc x.1) x.2 = some h

/-- If a step starts a handler, the pool has a free thread. -/
def ready (n : Nat) : FsMove → Bool
  | .step a (.lock _) _ => (begins (s.waits.pc a)).all fun x => (s.busy x.1).card < n
  | _ => true

/-- The threads that are in a call afterwards. -/
def activeAfter : FsMove → Finset Act
  | .call a _ => insert a s.active
  | .ret a => s.active.erase a
  | _ => s.active

def next (n : Nat) (m : FsMove) : Option (FsPools × List FsEvent) :=
  if s.ready n m then (s.waits.next m).map fun r => (⟨r.1, s.activeAfter m⟩, r.2) else none

end FsPools

/-- All clients, with the extents `x` on the server before the run, and `n` handler threads in each
pool. -/
def fsPoolSystem (n : Nat) (x : ExtentId → Option Extent) : System FsPools FsMove FsEvent where
  init s := (fsWaitSystem x).init s.waits ∧ s.active = ∅
  next s := s.next n

/-- The calls under way go on: nobody makes a new call, and nobody wakes up without a reason. -/
def poolDrain (n : Nat) (x : ExtentId → Option Extent) : System FsPools FsMove FsEvent where
  init := (fsPoolSystem n x).Reachable
  next s
    | .step a x who => s.next n (.step a x who)
    | .ret a => s.next n (.ret a)
    | .call .. | .spurious .. => none

section

variable {n : Nat} {y : ExtentId → Option Extent} {s s' : FsPools} {a b : Act} {m : FsMove}
  {es τ : List FsEvent} {h : Host} {r : Handler} {k : Inum}

theorem FsPools.next_eq_some : s.next n m = some (s', es) ↔
    s.ready n m = true ∧ s.waits.next m = some (s'.waits, es) ∧ s'.active = s.activeAfter m := by
  simp only [FsPools.next, Option.ite_none_right_eq_some, Option.map_eq_some_iff, Prod.exists,
    Prod.mk.injEq]
  constructor
  · rintro ⟨hready, w, es', hn, rfl, rfl⟩
    exact ⟨hready, hn, rfl⟩
  · rintro ⟨hready, hn, hactive⟩
    exact ⟨hready, s'.waits, es, hn, by rw [← hactive], rfl⟩

theorem forgets_pool : System.Forgets FsPools.waits (fsPoolSystem n y) (fsWaitSystem y) :=
  fun _ _ _ _ hn => (FsPools.next_eq_some.mp hn).2.1

theorem forgets_drain : System.Forgets FsPools.waits (poolDrain n y) (fsDrain y) := by
  intro s m s' es hn
  cases m with
  | step a x who => exact (FsPools.next_eq_some.mp hn).2.1
  | ret a =>
      have hn : s.next n (.ret a) = some (s', es) := hn
      exact (FsPools.next_eq_some.mp hn).2.1
  | call => cases hn
  | spurious => cases hn

theorem waits_run (hrun : (fsPoolSystem n y).Run τ s) : (fsWaitSystem y).Run τ s.waits :=
  forgets_pool.run (fun _ hs => hs.1) hrun

theorem poolDrain_next (hn : (poolDrain n y).next s m = some (s', es)) :
    (fsPoolSystem n y).next s m = some (s', es) := by
  cases m with
  | step a x who => exact hn
  | ret a => exact hn
  | call => cases hn
  | spurious => cases hn

theorem poolDrain_reachable {as : List FsMove} (hreach : (fsPoolSystem n y).Reachable s)
    (he : (poolDrain n y).exec s as = some (s', es)) : (fsPoolSystem n y).Reachable s' := by
  obtain ⟨τ, hrun⟩ := hreach
  have hf : System.Forgets id (poolDrain n y) (fsPoolSystem n y) :=
    fun _ _ _ _ hn => poolDrain_next hn
  exact ⟨_, hrun.exec (hf.exec he)⟩

/-! ## A step starts at most one handler -/

theorem begins_of_releaseStep {l l' : LockState} {c : ClientId} {p p' : RelPc}
    {les : List Lock.Event} {addr : ClientId}
    (hn : Lock.releaseStep l c p = some (l', some p', les)) (hp : p' = .retry addr) :
    relBegins p = some (.server, .release) := by
  cases p with
  | call => rfl
  | flush =>
      cases hn
      cases hp
  | retry =>
      cases hn
      cases hp
  | reply => cases hn

/-- What a section adds to the handlers that wait is the handler that starts with it. -/
theorem waitsAt_next {l l' : LockState} {les : List Lock.Event}
    (hn : Lock.next l a = some (l', les)) (hw : waitsAt (l'.pc a) r = some h) :
    waitsAt (l.pc a) r = some h ∨ begins (l.pc a) = some (h, r) := by
  have hset : ∀ (t : LockState) p, (t.setPc a p).pc a = p := fun _ _ => update_self ..
  have hleave : ∀ z, (Lock.leaveAcquire l a z).1 = l' → False := by
    rintro z rfl
    have hpc : (Lock.leaveAcquire l a z).1.pc a = z.2.pc := update_self ..
    rw [hpc] at hw
    cases hz : z.2 <;> simp [hz, Lock.AcquireNext.pc, waitsAt] at hw
  unfold Lock.next at hn
  cases hpc : l.pc a with
  | idle =>
      simp only [hpc, Option.some.injEq] at hn
      exact (hleave _ (congrArg Prod.fst hn)).elim
  | waiting | waitingRelease | waitingRetry | acquireReply =>
      simp only [hpc, Option.bind_eq_bind, Option.bind_eq_some_iff] at hn
      obtain ⟨e, -, hn⟩ := hn
      exact (hleave _ (congrArg Prod.fst (Option.some.inj hn))).elim
  | acquireCall =>
      simp only [hpc, Option.some.injEq, Prod.mk.injEq] at hn
      obtain ⟨rfl, -⟩ := hn
      rw [hset] at hw
      cases hrev : (Lock.serverAcquire l.server a.1).2.2 with
      | none => simp [hrev, waitsAt] at hw
      | some holder =>
          right
          cases r <;> simp_all [waitsAt, begins]
  | revoking holder ret p =>
      cases p with
      | call =>
          simp only [hpc] at hn
          split at hn
          · cases hn
            rw [hset] at hw
            simp [waitsAt] at hw
          · cases hn
            rw [hset] at hw
            split at hw
            · cases r <;> simp_all [waitsAt, begins]
            · simp [waitsAt] at hw
      | rel p =>
          simp only [hpc, Option.bind_eq_bind, Option.bind_eq_some_iff] at hn
          obtain ⟨⟨t, q, es'⟩, ht, hn⟩ := hn
          cases hn
          rw [hset] at hw
          cases q with
          | none => simp [waitsAt] at hw
          | some p' =>
              cases r with
              | acquire => exact .inl hw
              | revoke => exact .inl hw
              | retry => simp [waitsAt] at hw
              | release =>
                  cases p' with
                  | retry addr =>
                      cases hw
                      exact .inr (begins_of_releaseStep ht rfl)
                  | _ => simp [waitsAt] at hw
  | holding =>
      simp only [hpc] at hn
      split at hn
      · cases hn
        rw [hset] at hw
        simp [waitsAt] at hw
      · cases hn
        rw [hset] at hw
        split at hw <;> simp [waitsAt] at hw
  | releasing p =>
      simp only [hpc, Option.bind_eq_bind, Option.bind_eq_some_iff] at hn
      obtain ⟨⟨t, q, es'⟩, ht, hn⟩ := hn
      cases hn
      rw [hset] at hw
      cases q with
      | none => simp [waitsAt] at hw
      | some p' =>
          cases p' with
          | retry addr =>
              cases r with
              | release =>
                  cases hw
                  exact .inr (begins_of_releaseStep ht rfl)
              | _ => simp [waitsAt] at hw
          | _ => simp [waitsAt] at hw

end

section

variable {s s' : FsWaits} {a b : Act} {x : CacheAction} {who : Option Act} {c : YfsCall}
  {p : Program} {q : ClientReq} {t : CacheState} {ans : Option Answer} {h : Host} {r : Handler}
  {k : Inum}

/-- A thread that is busy elsewhere is in no handler at the lock `k`. -/
theorem Place.waitsAt_eq_none {st : Option (YfsCall × Program)} {pc : Pc} {o : OpPc}
    (hplace : Place st k pc o)
    (hst : ∀ c p q, st = some (c, p) → p.request = some q → q.id ≠ k) : waitsAt pc r = none := by
  cases hplace with
  | idle => rfl
  | held => rfl
  | getting => rfl
  | acquiring hy => exact absurd rfl (hst _ _ _ hy rfl)
  | releasing hy => exact absurd rfl (hst _ _ _ hy rfl)

namespace Steps

theorem pc_self (hs : Steps s s' a x who c p q t ans) : s.pc a = (s.fs.world q.id).lock.pc a := by
  simp [FsWaits.pc, FsWaits.focus, hs.thread, hs.request]

theorem pc_other (hs : Steps s s' a x who c p q t ans) (hb : b ≠ a) : s'.pc b = s.pc b := by
  obtain ⟨hthread, hplace⟩ := hs.other hb
  have hfocus : s'.focus b = s.focus b := by
    unfold FsWaits.focus
    rw [hthread]
  unfold FsWaits.pc
  rw [hfocus]
  cases s.focus b with
  | none => rfl
  | some k => exact (hplace k).1

/-- If the thread has gone on to another lock, it is in no handler there. -/
theorem waitsAt_self (hs : Steps s s' a x who c p q t ans)
    (hplace : ∀ k, Place (s.fs.thread a) k ((s.fs.world k).lock.pc a) ((s.fs.world k).op a))
    (hw : waitsAt (s'.pc a) r = some h) : waitsAt (t.lock.pc a) r = some h := by
  unfold FsWaits.pc at hw
  cases hk : s'.focus a with
  | none => simp [hk, waitsAt] at hw
  | some k =>
      simp only [hk, Option.elim] at hw
      by_cases hkq : k = q.id
      · rwa [hkq, hs.world] at hw
      · have hworld : s'.fs.world k = s.fs.world k := by
          rw [hs.fs]
          exact update_of_ne hkq _ _
        rw [hworld, (hplace k).waitsAt_eq_none] at hw
        · cases hw
        · intro c' p' q' ht hq
          rw [hs.thread] at ht
          cases ht
          rw [hs.request] at hq
          cases hq
          exact Ne.symm hkq

/-- What a step adds to the handlers that wait is the handler that starts with it. -/
theorem waitsAt_cases (hs : Steps s s' a x who c p q t ans)
    (hplace : ∀ k, Place (s.fs.thread a) k ((s.fs.world k).lock.pc a) ((s.fs.world k).op a))
    (hw : waitsAt (s'.pc a) r = some h) :
    waitsAt (s.pc a) r = some h ∨ x = .lock a ∧ begins (s.pc a) = some (h, r) := by
  have hw := hs.waitsAt_self hplace hw
  rw [hs.pc_self]
  obtain ⟨rfl, -, es, hn, -⟩ := ClientReq.step_eq_some hs.step
  rcases CacheState.next_cases hn with ⟨l, les, hx, hl, rfl, -⟩ | ⟨-, hlock, -⟩
  · exact (waitsAt_next hl hw).imp_right fun hb => ⟨hx, hb⟩
  · rw [hlock] at hw
    exact .inl hw

end Steps

end

/-! ## The pools are never overfull -/

/-- The active threads are those in calls, and no pool has more than `n` threads. -/
structure PoolInv (n : Nat) (s : FsPools) : Prop where
  active : ∀ a, a ∈ s.active ↔ s.waits.fs.thread a ≠ none
  room : ∀ h, (s.busy h).card ≤ n

section

variable {n : Nat} {y : ExtentId → Option Extent} {s s' : FsPools} {a b : Act} {m : FsMove}
  {es τ : List FsEvent} {h : Host} {r : Handler} {k : Inum}

theorem PoolInv.mem_busy (hi : PoolInv n s) :
    (a, r) ∈ s.busy h ↔ waitsAt (s.waits.pc a) r = some h := by
  simp only [FsPools.busy, Finset.mem_filter, Finset.mem_product, Finset.mem_univ, and_true,
    and_iff_right_iff_imp]
  intro hw
  rw [hi.active]
  intro hnone
  simp [FsWaits.pc, FsWaits.focus, hnone, waitsAt] at hw

theorem FsPools.waitsAt_of_mem (hmem : (a, r) ∈ s.busy h) :
    a ∈ s.active ∧ waitsAt (s.waits.pc a) r = some h := by
  simpa [FsPools.busy] using hmem

/-- Nothing is added to a pool. -/
theorem PoolInv.busy_subset (hi : PoolInv n s)
    (hw : ∀ a h r, a ∈ s'.active → waitsAt (s'.waits.pc a) r = some h →
      waitsAt (s.waits.pc a) r = some h) (h : Host) : (s'.busy h).card ≤ n := by
  refine le_trans (Finset.card_le_card ?_) (hi.room h)
  rintro ⟨a, r⟩ hmem
  obtain ⟨ha, hr⟩ := FsPools.waitsAt_of_mem hmem
  exact hi.mem_busy.mpr (hw a h r ha hr)

theorem PoolInv.step {x : CacheAction} {who : Option Act} (hi : PoolInv n s)
    (hrun : (fsWaitSystem y).Run τ s.waits) (hn : s.next n (.step a x who) = some (s', es)) :
    PoolInv n s' := by
  obtain ⟨hready, hn, hactive⟩ := FsPools.next_eq_some.mp hn
  obtain ⟨-, -, c, p, q, t, ans, hs⟩ := next_step hn
  have hplace := place_run (fsWaits_run hrun) a
  have hactive : s'.active = s.active := hactive
  constructor
  case active =>
    intro b
    rw [hactive, hi.active]
    by_cases hb : b = a
    · subst hb
      simp [hs.thread, hs.thread_self]
    · rw [(hs.other hb).1]
  case room =>
    intro h
    have hmem : ∀ b r, (b, r) ∈ s'.busy h → (b, r) ∈ s.busy h ∨
        b = a ∧ x = .lock a ∧ begins (s.waits.pc a) = some (h, r) := by
      intro b r hb
      obtain ⟨-, hw⟩ := FsPools.waitsAt_of_mem hb
      by_cases hba : b = a
      · subst hba
        exact (hs.waitsAt_cases hplace hw).imp hi.mem_busy.mpr fun hb => ⟨rfl, hb⟩
      · rw [hs.pc_other hba] at hw
        exact .inl (hi.mem_busy.mpr hw)
    by_cases hb : ∃ r, x = .lock a ∧ begins (s.waits.pc a) = some (h, r)
    · obtain ⟨r, rfl, hb⟩ := hb
      have hroom : (s.busy h).card < n := by
        simpa [FsPools.ready, hb] using hready
      have hsub : s'.busy h ⊆ insert (a, r) (s.busy h) := by
        rintro ⟨b, r'⟩ hmem'
        rcases hmem b r' hmem' with hold | ⟨rfl, -, hr'⟩
        · exact Finset.mem_insert_of_mem hold
        · rw [hb] at hr'
          cases hr'
          exact Finset.mem_insert_self ..
      calc (s'.busy h).card ≤ (insert (a, r) (s.busy h)).card := Finset.card_le_card hsub
        _ ≤ (s.busy h).card + 1 := Finset.card_insert_le ..
        _ ≤ n := hroom
    · refine le_trans (Finset.card_le_card ?_) (hi.room h)
      rintro ⟨b, r⟩ hmem'
      refine (hmem b r hmem').resolve_right ?_
      rintro ⟨-, hb'⟩
      exact hb ⟨r, hb'⟩

/-- A call begins or returns. -/
theorem PoolInv.setThread {st : Option (YfsCall × Program)} (hi : PoolInv n s)
    (hrun : (fsWaitSystem y).Run τ s.waits)
    (hactive : ∀ b, b ∈ s'.active ↔ if b = a then st ≠ none else b ∈ s.active)
    (hfs : s'.waits.fs = s.waits.fs.setThread a st)
    (ha : ∀ c p q, s.waits.fs.thread a = some (c, p) → p.request ≠ some q) : PoolInv n s' := by
  have hthread : s'.waits.fs.thread = update s.waits.fs.thread a st := by
    rw [hfs]
    rfl
  have hworld : s'.waits.fs.world = s.waits.fs.world := by
    rw [hfs]
    rfl
  constructor
  case active =>
    intro b
    rw [hactive, hthread]
    by_cases hb : b = a
    · rw [if_pos hb, hb, update_self]
    · rw [if_neg hb, update_of_ne hb, hi.active]
  case room =>
    refine hi.busy_subset fun b h r _ hw => ?_
    by_cases hb : b = a
    · -- whatever lock the call begins with, the thread is in no handler there
      subst hb
      exfalso
      unfold FsWaits.pc at hw
      cases hk : s'.waits.focus b with
      | none => simp [hk, waitsAt] at hw
      | some k =>
          simp only [hk, Option.elim, hworld] at hw
          rw [(place_run (fsWaits_run hrun) b k).waitsAt_eq_none
            fun c p q ht hq => absurd hq (ha c p q ht)] at hw
          cases hw
    · have hfocus : s'.waits.focus b = s.waits.focus b := by
        unfold FsWaits.focus
        rw [hthread, update_of_ne hb]
      unfold FsWaits.pc at hw ⊢
      rwa [hfocus, hworld] at hw

theorem poolInv_run (hrun : (fsPoolSystem n y).Run τ s) : PoolInv n s := by
  induction hrun with
  | @start s hs =>
      obtain ⟨⟨⟨-, hthread⟩, -⟩, hactive⟩ := hs
      refine ⟨fun a => by simp [hactive, hthread a], fun h => ?_⟩
      simp [FsPools.busy, hactive]
  | @step τ s m s' es hrun hn ih =>
      have hwaits := waits_run hrun
      have hn : s.next n m = some (s', es) := hn
      cases m with
      | step a x who => exact ih.step hwaits hn
      | call a c =>
          obtain ⟨-, hn, hactive⟩ := FsPools.next_eq_some.mp hn
          obtain ⟨hfs, -⟩ := next_fs (f := .call a c) (by simp) hn
          simp only [FsState.next] at hfs
          split at hfs
          · rename_i hnone
            have hfs := congrArg Prod.fst (Option.some.inj hfs)
            have hactive : ∀ b, b ∈ s'.active ↔
                if b = a then some (c, c.program) ≠ none else b ∈ s.active := by
              intro b
              rw [hactive]
              by_cases hb : b = a <;> simp [FsPools.activeAfter, hb]
            exact ih.setThread hwaits hactive hfs.symm fun _ _ _ ht => by simp [hnone] at ht
          · cases hfs
      | ret a =>
          obtain ⟨-, hn, hactive⟩ := FsPools.next_eq_some.mp hn
          obtain ⟨c, v, ht, hfs, -⟩ := next_ret hn
          refine ih.setThread hwaits (fun b => ?_) hfs fun _ _ _ ht' hq => ?_
          · rw [hactive]
            by_cases hb : b = a <;> simp [FsPools.activeAfter, hb]
          · rw [ht] at ht'
            cases ht'
            cases hq
      | spurious a k =>
          obtain ⟨-, hn, hactive⟩ := FsPools.next_eq_some.mp hn
          obtain ⟨hfs, -⟩ := next_spurious hn
          have hactive : s'.active = s.active := hactive
          have hpc : s'.waits.pc = s.waits.pc := by
            funext b
            simp [FsWaits.pc, FsWaits.focus, hfs]
          refine ⟨fun b => by rw [hactive, hfs, ih.active], ?_⟩
          refine ih.busy_subset fun b h r _ hw => ?_
          rwa [hpc] at hw

/-! ## When nobody can go on -/

/-- The acquire of thread `b` waits in the lock server for its revoke. -/
def FsWaits.Revoking (s : FsWaits) (b : Act) : Prop :=
  ∃ holder ret p, s.pc b = .revoking holder ret p

/-- A thread that a handler works for goes on, if the pools let it. -/
theorem FsInv.goesOn_of_waitsAt {s : FsWaits} {l : FsLocked} (hinv : FsInv s l)
    (hw : waitsAt (s.pc b) r = some h) : s.GoesOn b := by
  obtain ⟨k, hk, hpc⟩ : ∃ k, s.focus b = some k ∧ s.pc b = (s.fs.world k).lock.pc b := by
    cases hf : s.focus b with
    | none => simp [FsWaits.pc, hf, waitsAt] at hw
    | some k => exact ⟨k, rfl, by simp [FsWaits.pc, hf]⟩
  rw [hpc] at hw
  have hcond : ((s.fs.world k).lock.pc b).cond b = none := by
    cases hp : (s.fs.world k).lock.pc b <;> simp [hp, waitsAt] at hw <;> rfl
  have hne : (s.fs.world k).lock.pc b ≠ .holding := by
    intro hp
    simp [hp, waitsAt] at hw
  have hplace := hinv.place b k
  generalize hp : (s.fs.world k).lock.pc b = pc, (s.fs.world k).op b = o at hplace hw
  cases hplace with
  | idle => simp [waitsAt] at hw
  | held => exact absurd hp hne
  | getting => exact absurd hp hne
  | acquiring ht =>
      refine hinv.goesOn ht (by simp) fun j p' heq => ?_
      cases heq
      exact ⟨WakeState.awake_of_cond hcond, hne⟩
  | releasing ht => exact hinv.goesOn ht (by simp) (by simp)

/-- A thread that goes on but has to wait for a pool. -/
theorem begins_of_stuck (hgo : s.waits.GoesOn a)
    (hstuck : ∀ mv, (poolDrain n y).next s mv = none) :
    ∃ h r, begins (s.waits.pc a) = some (h, r) ∧ n ≤ (s.busy h).card := by
  have hblocked : ∀ mv r, s.next n mv = none → s.waits.next mv = some r → s.ready n mv = false := by
    intro mv r hnone hr
    by_contra hready
    simp [FsPools.next, hready, hr] at hnone
  rcases hgo with ⟨r, hr⟩ | ⟨x, who, r, hr⟩
  · cases hblocked (.ret a) r (hstuck (.ret a)) hr
  · have hready := hblocked _ r (hstuck (.step a x who)) hr
    cases x with
    | lock =>
        cases hb : begins (s.waits.pc a) with
        | none => simp [FsPools.ready, hb] at hready
        | some hr => exact ⟨hr.1, hr.2, rfl, by simpa [FsPools.ready, hb] using hready⟩
    | _ => cases hready

/-- The handlers of a client are handlers of revokes. -/
theorem waitsAt_client {p : Pc} {c : ClientId} (hw : waitsAt p r = some (.client c)) :
    r = .revoke ∧ ∃ ret q, p = .revoking c ret (.rel q) := by
  unfold waitsAt at hw
  split at hw <;> cases hw
  exact ⟨rfl, _, _, rfl⟩

theorem waitsAt_server {p : Pc} (hw : waitsAt p r = some .server) :
    r = .acquire ∧ (∃ holder ret q, p = .revoking holder ret q) ∨
    r = .release ∧ ∃ addr, begins p = some (.client addr, .retry) := by
  unfold waitsAt at hw
  split at hw <;> cases hw
  · exact .inl ⟨rfl, _, _, _, rfl⟩
  · exact .inr ⟨rfl, _, rfl⟩
  · exact .inr ⟨rfl, _, rfl⟩

/-- The handlers of a client have partners in the lock server. -/
theorem FsPools.card_busy_client {c : ClientId}
    (hr : ∀ b, (b, .revoke) ∈ s.busy (.client c) → (b, r) ∈ s.busy .server) :
    (s.busy (.client c)).card ≤ ((s.busy .server).filter fun x => x.2 = r).card := by
  refine Finset.card_le_card_of_injOn (fun x => (x.1, r)) ?_ ?_
  · rintro ⟨b, r'⟩ hb
    obtain ⟨rfl, -⟩ := waitsAt_client (FsPools.waitsAt_of_mem hb).2
    simpa using hr b hb
  · rintro ⟨b, r₁⟩ hb₁ ⟨b', r₂⟩ hb₂ heq
    obtain ⟨rfl, -⟩ := waitsAt_client (FsPools.waitsAt_of_mem hb₁).2
    obtain ⟨rfl, -⟩ := waitsAt_client (FsPools.waitsAt_of_mem hb₂).2
    cases heq
    rfl

theorem PoolInv.acquire_of_revoke {c : ClientId} (hi : PoolInv n s)
    (hb : (b, .revoke) ∈ s.busy (.client c)) : (b, .acquire) ∈ s.busy .server := by
  obtain ⟨-, ret, q, hpc⟩ := waitsAt_client (hi.mem_busy.mp hb)
  rw [hi.mem_busy, hpc]
  rfl

/-- As long as the lock server has a free thread, no pool stops anybody. -/
theorem PoolInv.not_goesOn {l : FsLocked} (hi : PoolInv n s) (hinv : FsInv s.waits l)
    (hstuck : ∀ mv, (poolDrain n y).next s mv = none) (hfree : (s.busy .server).card < n) (a : Act) :
    ¬ s.waits.GoesOn a := by
  intro hgo
  obtain ⟨h, r, -, hfull⟩ := begins_of_stuck hgo hstuck
  cases h with
  | server => omega
  | client c =>
      -- its handlers can only be waiting for retries, and then their releases are in the lock server
      have hrelease : ∀ b, (b, .revoke) ∈ s.busy (.client c) → (b, .release) ∈ s.busy .server := by
        intro b hb
        have hw := hi.mem_busy.mp hb
        obtain ⟨-, ret, q, hpc⟩ := waitsAt_client hw
        obtain ⟨h', r', hbegins, hfull'⟩ := begins_of_stuck (hinv.goesOn_of_waitsAt hw) hstuck
        rw [hpc] at hbegins
        cases q with
        | flush => cases hbegins
        | reply => cases hbegins
        | call =>
            cases hbegins
            omega
        | retry addr =>
            rw [hi.mem_busy, hpc]
            rfl
      have hle := FsPools.card_busy_client hrelease
      have hsub := Finset.card_filter_le (s.busy .server) fun x => x.2 = .release
      omega

/-- If the lock server has no free thread, they are all taken by acquires. -/
theorem PoolInv.all_revoking {l : FsLocked} (hi : PoolInv n s) (hinv : FsInv s.waits l)
    (hstuck : ∀ mv, (poolDrain n y).next s mv = none) (hfull : n ≤ (s.busy .server).card) :
    ∃ B : Finset Act, B.card = n ∧ ∀ b ∈ B, s.waits.Revoking b := by
  have hacquire : ∀ b r, (b, r) ∈ s.busy .server → r = .acquire ∧ s.waits.Revoking b := by
    intro b r hb
    have hw := hi.mem_busy.mp hb
    rcases waitsAt_server hw with h | ⟨rfl, addr, hretry⟩
    · exact h
    · -- a release waits for its retry, so the pool of the client is full
      obtain ⟨h', r', hbegins, hfull'⟩ := begins_of_stuck (hinv.goesOn_of_waitsAt hw) hstuck
      rw [hretry] at hbegins
      cases hbegins
      have hle := FsPools.card_busy_client (c := addr) fun _ => hi.acquire_of_revoke
      have hlt : ((s.busy .server).filter fun x => x.2 = .acquire).card < (s.busy .server).card := by
        refine Finset.card_lt_card (Finset.filter_ssubset.mpr ⟨_, hb, by simp⟩)
      have := hi.room .server
      omega
  refine ⟨(s.busy .server).image Prod.fst, ?_, fun b hb => ?_⟩
  · rw [Finset.card_image_of_injOn]
    · exact le_antisymm (hi.room _) hfull
    · rintro ⟨b, r₁⟩ hb₁ ⟨b', r₂⟩ hb₂ rfl
      rw [(hacquire _ _ hb₁).1, (hacquire _ _ hb₂).1]
  · obtain ⟨⟨b', r⟩, hmem, rfl⟩ := Finset.mem_image.mp hb
    exact (hacquire _ _ hmem).2

/-- On a new file system, from every reachable state in which no number has been drawn twice: if nobody
makes a new call or wakes up without a reason, then there is a bound on the number of steps, whatever
their order; and when no step is possible any more, all calls that were under way have returned, unless
one of them has thrown an exception, or all the handler threads of the lock server are taken by
acquires that wait for their revokes. -/
theorem yfs_completes {attr : Extents.Attr} (hrun : (fsPoolSystem n (mkfs attr)).Run τ s)
    (hnodup : (1 :: numbers τ).Nodup) :
    (∃ N, ∀ as s' es, (poolDrain n (mkfs attr)).exec s as = some (s', es) → as.length ≤ N) ∧
    ∀ as s' es, (poolDrain n (mkfs attr)).exec s as = some (s', es) →
      (∀ mv, (poolDrain n (mkfs attr)).next s' mv = none) →
      (∃ a c, s'.waits.fs.thread a = some (c, .fault)) ∨
      (∃ B : Finset Act, B.card = n ∧ ∀ b ∈ B, s'.waits.Revoking b) ∨
        (∀ a, s'.waits.fs.thread a = none) ∧
          ∀ a c p, s.waits.fs.thread a = some (c, p) → ∃ r, .returned a c r ∈ es := by
  have hwaits := waits_run hrun
  constructor
  · obtain ⟨N, hN⟩ := drain_bounded ⟨τ, hwaits⟩
    exact ⟨N, fun as s' es he => hN as s'.waits es (forgets_drain.exec he)⟩
  · intro as s' es he hstuck
    obtain ⟨τ', hrun'⟩ := poolDrain_reachable ⟨τ, hrun⟩ he
    have hi := poolInv_run hrun'
    obtain ⟨hdrain, hnumbers⟩ := drain_run hwaits (forgets_drain.exec he)
    obtain ⟨l, -, hinv⟩ := fsInv_run hdrain
    by_cases hfault : ∃ a c, s'.waits.fs.thread a = some (c, .fault)
    · exact .inl hfault
    · rcases Nat.lt_or_ge (s'.busy .server).card n with hfree | hfull
      · have hidle : ∀ a, s'.waits.fs.thread a = none :=
          at_rest_of_run hdrain (by rw [hnumbers]; exact hnodup)
            (hi.not_goesOn hinv hstuck hfree) fun a c ht => hfault ⟨a, c, ht⟩
        refine .inr (.inr ⟨hidle, fun a c p ht => ?_⟩)
        refine (returned_or_thread (forgets_drain.exec he) ht).resolve_right ?_
        rintro ⟨q, hq⟩
        rw [hidle a] at hq
        cases hq
      · exact .inr (.inl (hi.all_revoking hinv hstuck hfull))

/-- `c2` has been denied the lock of the root and sleeps, while `c1` creates a file there. With ten
handler threads two calls do not run out of them. -/
theorem yfs_completes_contended :
    let a : YfsCall := .create 1 [97] true 5
    let b : YfsCall := .create 1 [98] true 6
    ∃ τ s, (fsPoolSystem 10 (mkfs {})).Run τ s ∧ (s.waits.wake 1).asleep ("c2", 0) = true ∧
      τ = [.called ("c1", 0) a, .called ("c2", 0) b] ∧
      ∀ as s' es, (poolDrain 10 (mkfs {})).exec s as = some (s', es) →
        (∀ mv, (poolDrain 10 (mkfs {})).next s' mv = none) →
        (∃ a c, s'.waits.fs.thread a = some (c, .fault)) ∨
        (∃ B : Finset Act, B.card = 10 ∧ ∀ b ∈ B, s'.waits.Revoking b) ∨
          ∃ r, .returned ("c2", 0) b r ∈ es := by
  intro a b
  let c1 : Act := ("c1", 0)
  let c2 : Act := ("c2", 0)
  let lock : Act → FsMove := fun a => .step a (.lock a) none
  let acts : List FsMove := [.call c1 a, .call c2 b, lock c1, lock c1, lock c1, lock c2, lock c2,
    lock c2, lock c2]
  obtain ⟨τ, s, hrun, hτ, hsleep, hcall⟩ := System.exists_run (S := fsPoolSystem 10 (mkfs {}))
    (s := ⟨⟨⟨fun eid => ⟨.initial, fun _ => none, mkfs {} eid, fun _ => .idle⟩, fun _ => none⟩,
      fun _ => .empty⟩, ∅⟩)
    (p := fun τ s => τ = [.called c1 a, .called c2 b] ∧ (s.waits.wake 1).asleep c2 = true ∧
      (s.waits.fs.thread c2).map Prod.fst = some b)
    acts ⟨⟨⟨fun _ => rfl, fun _ => rfl⟩, rfl⟩, rfl⟩ (by decide +kernel)
  obtain ⟨⟨c, p⟩, ht, rfl⟩ := Option.map_eq_some_iff.mp hcall
  refine ⟨τ, s, hrun, hsleep, hτ, fun as s' es he hstuck => ?_⟩
  rcases (yfs_completes hrun (by rw [hτ]; decide)).2 as s' es he hstuck with
    hfault | hfull | ⟨-, hret⟩
  · exact .inl hfault
  · exact .inr (.inl hfull)
  · exact .inr (.inr (hret c2 _ p ht))

/-- With one handler thread in each pool: `c2` asks for the lock of the root, which `c1` keeps in its
cache. The thread of the lock server waits for the revoke, the revoke waits for its release, and the
release waits for a thread of the lock server. -/
theorem acquires_stand_still :
    ∃ τ s, (fsPoolSystem 1 (mkfs {})).Run τ s ∧ s.waits.Revoking ("c2", 0) ∧
      ∀ mv, (poolDrain 1 (mkfs {})).next s mv = none := by
  let c1 : Act := ("c1", 0)
  let c2 : Act := ("c2", 0)
  let lock : Act → FsMove := fun a => .step a (.lock a) none
  let start : Act → Op → FsMove := fun a op => .step a (.start a op 9) none
  let acts : List FsMove := [.call c1 (.getdata 1), lock c1, lock c1, lock c1, start c1 .get,
    .step c1 (.serve c1 9) none, .step c1 (.finish c1 9) none, lock c1, .ret c1,
    .call c2 (.getdata 1), lock c2, lock c2, lock c2, start c2 .flush, lock c2]
  obtain ⟨τ, s, hrun, hactive, hfocus, hpc, hbusy, hop⟩ :=
    System.exists_run (S := fsPoolSystem 1 (mkfs {}))
      (s := ⟨⟨⟨fun eid => ⟨.initial, fun _ => none, mkfs {} eid, fun _ => .idle⟩, fun _ => none⟩,
        fun _ => .empty⟩, ∅⟩)
      (p := fun _ s => s.active = {c2} ∧ s.waits.focus c2 = some 1 ∧
        s.waits.pc c2 = .revoking "c1" .retry (.rel .call) ∧ (s.busy .server).card = 1 ∧
        (s.waits.fs.world 1).op c2 = .idle)
      acts ⟨⟨⟨fun _ => rfl, fun _ => rfl⟩, rfl⟩, rfl⟩ (by decide +kernel)
  have hi := poolInv_run hrun
  have honly : ∀ a, s.waits.fs.thread a ≠ none → a = c2 := by
    intro a ha
    simpa [hactive] using (hi.active a).mpr ha
  refine ⟨τ, s, hrun, ⟨_, _, _, hpc⟩, fun mv => ?_⟩
  by_contra hne
  obtain ⟨⟨s', es⟩, hn⟩ := Option.ne_none_iff_exists'.mp hne
  cases mv with
  | call => cases hn
  | spurious => cases hn
  | ret a =>
      obtain ⟨c, v, ht, -⟩ := next_ret (forgets_drain _ _ _ _ hn)
      obtain rfl := honly a (by simp [ht])
      simp [FsWaits.focus, ht, Program.request] at hfocus
  | step a x who =>
      obtain ⟨hready, hn, -⟩ := FsPools.next_eq_some.mp hn
      obtain ⟨-, -, c, p, q, t, ans, hs⟩ := next_step hn
      obtain rfl := honly a (by simp [hs.thread])
      have hq : q.id = 1 := by
        simpa [FsWaits.focus, hs.thread, hs.request] using hfocus
      have hlock : (s.waits.fs.world 1).lock.pc c2 = .revoking "c1" .retry (.rel .call) := by
        rw [← hpc, hs.pc_self, hq]
      obtain ⟨hact, -, es', hnext, -⟩ := ClientReq.step_eq_some hs.step
      rw [hq] at hnext
      cases x with
      | lock b =>
          simp only [FsPools.ready, hpc, begins, relBegins, Option.all_some,
            decide_eq_true_eq] at hready
          omega
      | start b op now =>
          obtain rfl : b = c2 := hact
          simp [CacheState.next, hlock, Pc.site] at hnext
      | serve b now =>
          obtain rfl : b = c2 := hact
          simp [CacheState.next, hop] at hnext
      | finish b now =>
          obtain rfl : b = c2 := hact
          simp [CacheState.next, hlock, Pc.site] at hnext

end

end Yfs.Fs
