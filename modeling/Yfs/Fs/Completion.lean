import Yfs.Fs.Waits

/-!
# File system calls come to an end

Let the calls that are under way go on, and let no thread make a new one. Then there is a bound on the
number of their steps, in whatever order they come (`drain_bounded`): no call goes round in circles.
And where no thread can go on, all calls have returned, unless one of them has thrown an exception
(`at_rest_of_run`): no two calls wait for each other, and no wake-up is lost.

The second is `FsInv.at_rest`. The first is shown by a rank. A request that returns lowers it most,
and so does a request that begins, because a program has only so many requests. Between these, every
step in the protocol of a lock lowers the rank of that lock, and the steps of an RPC to the extent
server lower what is left of it.
-/

namespace Yfs.Extents

/-- What remains of an operation. -/
def OpPc.rank : OpPc → Nat
  | .idle => 3
  | .calling _ => 2
  | .replying _ _ => 1
  | .flushed => 0

theorem OpPc.rank_le (o : OpPc) : o.rank ≤ 3 := by
  cases o <;> simp [OpPc.rank]

end Yfs.Extents

namespace Yfs.Fs

open Yfs.Lib Yfs.Extents Function
open Yfs.Lock (Act ClientId Phase Pc LockState WakeState Support)
open Yfs.Rpc (Bytes)

/-! ## What remains of a program -/

namespace Program

/-- At most `n` requests remain, and they are about locks and extents in `K`. -/
def Within (K : List Inum) : Program → Nat → Prop
  | ret _, _ | fault, _ => True
  | acquire k p, n + 1 | release k p, n + 1 => k ∈ K ∧ p.Within K n
  | get k f, n + 1 => k ∈ K ∧ ∀ rs buf, (f rs buf).Within K n
  | put k _ f, n + 1 => k ∈ K ∧ ∀ rs, (f rs).Within K n
  | acquire .., 0 | release .., 0 | get .., 0 | put .., 0 => False

variable {K K' : List Inum} {p : Program} {n : Nat} {q : ClientReq}

theorem Within.mono (h : p.Within K n) (hK : K ⊆ K') : p.Within K' n := by
  induction p generalizing n with
  | ret | fault => trivial
  | acquire k p ih | release k p ih =>
      cases n with
      | zero => exact h
      | succ n => exact ⟨hK h.1, ih h.2⟩
  | get k f ih =>
      cases n with
      | zero => exact h
      | succ n => exact ⟨hK h.1, fun rs buf => ih rs buf (h.2 rs buf)⟩
  | put k buf f ih =>
      cases n with
      | zero => exact h
      | succ n => exact ⟨hK h.1, fun rs => ih rs (h.2 rs)⟩

theorem Within.resume (h : p.Within K n) (hq : p.request = some q) :
    q.id ∈ K ∧ ∃ m, n = m + 1 ∧ ∀ r, (p.resume r).Within K m := by
  cases p with
  | ret | fault => cases hq
  | acquire k p | release k p =>
      cases hq
      cases n with
      | zero => exact h.elim
      | succ n => exact ⟨h.1, n, rfl, fun _ => h.2⟩
  | get k f =>
      cases hq
      cases n with
      | zero => exact h.elim
      | succ n => exact ⟨h.1, n, rfl, fun r => h.2 r.ret r.buf⟩
  | put k buf f =>
      cases hq
      cases n with
      | zero => exact h.elim
      | succ n => exact ⟨h.1, n, rfl, fun r => h.2 r.ret⟩

end Program

/-- The locks and extents that a call is about. -/
def YfsCall.ids : YfsCall → List Inum
  | create parent _ isfile rand => [parent, randInum isfile rand]
  | lookup parent .. => [parent]
  | read ino .. | write ino .. | setattr ino _ | getdata ino => [ino]

theorem within_modify (ino : Inum) (f : Bytes → Except Fault Bytes) :
    (Program.modify ino f).Within [ino] 7 := by
  refine ⟨by simp, by simp, fun rs buf => ?_⟩
  dsimp only
  split
  · exact ⟨by simp, trivial⟩
  · split
    · trivial
    · exact ⟨by simp, fun _ => ⟨by simp, trivial⟩⟩

theorem within_program (c : YfsCall) : c.program.Within c.ids 7 := by
  cases c with
  | create parent name isfile rand =>
      show (Program.create parent name isfile rand).Within _ 7
      have hparent : parent ∈ YfsCall.ids (.create parent name isfile rand) := by simp [YfsCall.ids]
      have hnum : randInum isfile rand ∈ YfsCall.ids (.create parent name isfile rand) := by
        simp [YfsCall.ids]
      unfold Program.create
      split
      · refine ⟨hparent, hparent, fun rs b => ?_⟩
        dsimp only
        split
        · exact ⟨hparent, trivial⟩
        · split
          · exact ⟨hparent, trivial⟩
          · refine ⟨hnum, hnum, fun rs => ?_⟩
            dsimp only
            split
            · exact ⟨hnum, hparent, trivial⟩
            · refine ⟨hparent, fun rs => ?_⟩
              dsimp only
              split <;> exact ⟨hnum, hparent, trivial⟩
      · trivial
  | lookup parent name junk =>
      show (Program.lookup parent name junk).Within [parent] 7
      unfold Program.lookup
      split
      · split
        · trivial
        · refine ⟨by simp, by simp, fun rs b => ?_⟩
          dsimp only
          split
          · exact ⟨by simp, trivial⟩
          · split
            · exact ⟨by simp, trivial⟩
            · split
              · trivial
              · exact ⟨by simp, trivial⟩
      · trivial
  | read ino size off =>
      refine ⟨by simp [YfsCall.ids], by simp [YfsCall.ids], fun rs buf => ?_⟩
      dsimp only
      split
      · exact ⟨by simp [YfsCall.ids], trivial⟩
      · split
        · trivial
        · exact ⟨by simp [YfsCall.ids], trivial⟩
  | write ino buf off =>
      show (Program.write ino buf off).Within [ino] 7
      unfold Program.write
      split
      · trivial
      · exact within_modify ino _
  | setattr fileno stSize => exact within_modify fileno _
  | getdata ino =>
      exact ⟨by simp [YfsCall.ids], by simp [YfsCall.ids], fun _ _ => ⟨by simp [YfsCall.ids], trivial⟩⟩

/-! ## The rank -/

/-- The most that the rank of a lock can be. -/
def wakeBound (A : List Act) (C : List ClientId) : Nat :=
  pack (2 * A.length) (pack (22 * C.length) A.length (22 * C.length)) (2 * A.length)

theorem wake_rank_le (w : WakeState) (ph : ClientId → Phase) (A : List Act) (C : List ClientId) :
    w.rank ph A C ≤ wakeBound A C := by
  have hcalls : total (fun a => if (w.lock.pc a).inAcquire then 1 else 0) A ≤ 1 * A.length :=
    total_bound (fun a => by split <;> simp) A
  rw [Nat.one_mul] at hcalls
  exact pack_le (pack_le hcalls (total_bound (fun x => (ph x).rank_le) C)) (total_bound w.unrest_le A)

namespace FsState

variable (s : FsState)

/-- Thread `a` has come to an `acquire` and has not called it. -/
def fresh (a : Act) : Nat :=
  match s.thread a with
  | some (_, .acquire k _) => if (s.world k).lock.pc a = .idle then 1 else 0
  | _ => 0

/-- What thread `a` has to do, if at most `m a` requests remain. -/
def work (m : Act → Nat) (a : Act) : Nat :=
  match s.thread a with
  | none => 0
  | some _ => 2 * m a + 1 + s.fresh a

/-- What remains of the RPCs to the extent server. -/
def rpcs (A : List Act) (k : Inum) : Nat := total (fun a => ((s.world k).op a).rank) A

end FsState

/-- The requests first, then the ways of the locks, then the RPCs to the extent server. -/
def FsWaits.rank (s : FsWaits) (m : Act → Nat) (ph : Inum → ClientId → Phase) (K : List Inum)
    (A : List Act) (C : List ClientId) : Nat :=
  pack (3 * A.length * K.length)
    (pack (wakeBound A C * K.length) (total (s.fs.work m) A)
      (total (fun k => (s.wake k).rank (ph k) A C) K))
    (total (s.fs.rpcs A) K)

/-- The calls under way are those of threads in `A`, they have at most `m` requests left, about locks in
`K`, and at these locks there are no threads but those in `A` and no clients but those in `C`. -/
structure Ranked (y : ExtentId → Option Extent) (K : List Inum) (A : List Act) (C : List ClientId)
    (s : FsWaits) (m : Act → Nat) (ph : Inum → ClientId → Phase) : Prop where
  reachable : (fsWaitSystem y).Reachable s
  support : ∀ k ∈ K, Lock.Inv (s.wake k).lock (ph k) ∧ Support (s.wake k).lock (ph k) A C
  within : ∀ a c p, s.fs.thread a = some (c, p) → a ∈ A ∧ p.Within K (m a)

section

variable {y : ExtentId → Option Extent} {K : List Inum} {A : List Act} {C : List ClientId}
  {s s' : FsWaits} {m m' : Act → Nat} {ph ph' : Inum → ClientId → Phase} {a b : Act} {c : YfsCall}
  {p : Program} {q : ClientReq} {x : CacheAction} {who : Option Act} {t : CacheState}
  {ans : Option Answer} {es : List FsEvent}

/-- A thread has less to do. -/
theorem rank_lt_of_work (ha : a ∈ A) (hlt : s'.fs.work m' a < s.fs.work m a)
    (hother : ∀ b, b ≠ a → s'.fs.work m' b = s.fs.work m b) :
    s'.rank m' ph' K A C < s.rank m ph K A C := by
  have hlocks : total (fun k => (s'.wake k).rank (ph' k) A C) K ≤ wakeBound A C * K.length :=
    total_bound (fun k => wake_rank_le _ _ A C) K
  have hrpcs : total (s'.fs.rpcs A) K ≤ 3 * A.length * K.length :=
    total_bound (fun k => total_bound (fun a => OpPc.rank_le _) A) K
  refine pack_lt_of_fst hrpcs (pack_lt_of_fst hlocks (total_lt (fun b _ => ?_) ha hlt))
  by_cases hb : b = a
  · exact hb ▸ le_of_lt hlt
  · exact le_of_eq (hother b hb)

/-- A lock goes on its way. -/
theorem rank_lt_of_wake {k : Inum} (hk : k ∈ K) (hwork : ∀ b, s'.fs.work m b ≤ s.fs.work m b)
    (hlt : (s'.wake k).rank (ph' k) A C < (s.wake k).rank (ph k) A C)
    (hother : ∀ j, j ≠ k → s'.wake j = s.wake j ∧ ph' j = ph j) :
    s'.rank m ph' K A C < s.rank m ph K A C := by
  have hrpcs : total (s'.fs.rpcs A) K ≤ 3 * A.length * K.length :=
    total_bound (fun k => total_bound (fun a => OpPc.rank_le _) A) K
  refine pack_lt_of_fst hrpcs (pack_lt_of_snd (total_le fun b _ => hwork b)
    (total_lt (fun j _ => ?_) hk hlt))
  by_cases hj : j = k
  · exact hj ▸ le_of_lt hlt
  · rw [(hother j hj).1, (hother j hj).2]

/-- An RPC to the extent server goes on. -/
theorem rank_lt_of_rpc {k : Inum} (hk : k ∈ K) (ha : a ∈ A)
    (hwork : ∀ b, s'.fs.work m b ≤ s.fs.work m b) (hwake : s'.wake = s.wake)
    (hlt : ((s'.fs.world k).op a).rank < ((s.fs.world k).op a).rank)
    (hother : ∀ b, b ≠ a → (s'.fs.world k).op b = (s.fs.world k).op b)
    (hworld : ∀ j, j ≠ k → s'.fs.world j = s.fs.world j) :
    s'.rank m ph K A C < s.rank m ph K A C := by
  have hle : ∀ j, s'.fs.rpcs A j ≤ s.fs.rpcs A j := by
    intro j
    refine total_le fun b _ => ?_
    by_cases hj : j = k
    · subst hj
      by_cases hb : b = a
      · exact hb ▸ le_of_lt hlt
      · rw [hother b hb]
    · rw [hworld j hj]
  refine pack_lt_of_snd (pack_le (total_le fun b _ => hwork b) ?_) (total_lt (fun j _ => hle j) hk ?_)
  · rw [hwake]
  · refine total_lt (fun b _ => ?_) ha hlt
    by_cases hb : b = a
    · exact hb ▸ le_of_lt hlt
    · rw [hother b hb]

/-! ## Every step lowers the rank -/

namespace Steps

theorem thread_self (h : Steps s s' a x who c p q t ans) :
    s'.fs.thread a = some (c, ans.elim p fun r => p.resume r) := by
  rw [h.fs]
  exact update_self ..

/-- Nothing changes for the other threads. -/
theorem other (h : Steps s s' a x who c p q t ans) (hb : b ≠ a) :
    s'.fs.thread b = s.fs.thread b ∧ ∀ k, (s'.fs.world k).lock.pc b = (s.fs.world k).lock.pc b ∧
      (s'.fs.world k).op b = (s.fs.world k).op b := by
  rw [h.fs]
  refine ⟨update_of_ne hb _ _, fun k => ?_⟩
  by_cases hk : k = q.id
  · subst hk
    rw [show ((s.fs.setWorld q.id t).setThread a _).world q.id = t from update_self ..]
    exact ClientReq.step_other h.step hb
  · rw [show ((s.fs.setWorld q.id t).setThread a _).world k = s.fs.world k from update_of_ne hk _ _]
    exact ⟨rfl, rfl⟩

theorem work_other (h : Steps s s' a x who c p q t ans) (hb : b ≠ a) (hm : m' b = m b) :
    s'.fs.work m' b = s.fs.work m b := by
  obtain ⟨hthread, hplace⟩ := h.other hb
  unfold FsState.work FsState.fresh
  rw [hthread, hm]
  split
  · rfl
  · split
    · rw [(hplace _).1]
    · rfl

end Steps

/-- At the lock of the step there are still only the threads in `A` and the clients in `C`. -/
theorem Ranked.support_step (h : Ranked y K A C s m ph) (hs : Steps s s' a x who c p q t ans)
    (ha : a ∈ A) (hq : q.id ∈ K) :
    ∃ ph' : Inum → ClientId → Phase, ∀ k ∈ K,
      Lock.Inv (s'.wake k).lock (ph' k) ∧ Support (s'.wake k).lock (ph' k) A C := by
  obtain ⟨P, hP⟩ : ∃ P, Lock.Inv (s'.wake q.id).lock P ∧ Support (s'.wake q.id).lock P A C := by
    obtain ⟨hi, hsup⟩ := h.support q.id hq
    rcases hs.wake_cases with ⟨les, -, hrun⟩ | ⟨-, heq⟩
    · obtain ⟨-, hn, -⟩ := WakeState.run_eq_some.mp hrun
      obtain ⟨P, hi', hm⟩ := Lock.inv_next hi hn
      exact ⟨P, hi', hsup.next ha hn hi' hm⟩
    · rw [heq]
      exact ⟨ph q.id, hi, hsup⟩
  refine ⟨update ph q.id P, fun k hk => ?_⟩
  by_cases hkq : k = q.id
  · subst hkq
    rw [update_self]
    exact hP
  · rw [update_of_ne hkq, hs.wake_of_ne hkq]
    exact h.support k hk

/-- What remains of an RPC, after a step of an operation that does not return. -/
theorem op_rank_lt {s : CacheState} (hs : q.step a s x = some (t, none)) (hx : ∀ b, x ≠ .lock b) :
    (t.op a).rank < (s.op a).rank := by
  obtain ⟨rfl, hallows, es, hn, hans⟩ := ClientReq.step_eq_some hs
  -- an operation of a thread that holds the lock returns with its last step
  have hdone : ∀ {c r}, (s.lock.pc x.act).site x.act = some c → s.answer x = some r →
      opDone (s.lock.pc x.act) = .flushed := by
    intro c r hsite hr
    refine opDone_of_site hsite fun hp => ?_
    cases q with
    | acquire => simp [ClientReq.allows, hp] at hallows
    | release =>
        cases x with
        | lock b => exact hx b rfl
        | _ => simp [ClientReq.allows, hp] at hallows
    | get | put =>
        rw [show s.answer x = none from hans] at hr
        cases hr
  cases x with
  | lock b => exact absurd rfl (hx b)
  | start b op now =>
      simp only [CacheState.next, Option.bind_eq_bind, Option.bind_eq_some_iff] at hn
      obtain ⟨c, hsite, hn⟩ := hn
      split at hn
      · rename_i hidle
        split at hn
        · rename_i e r hstart
          cases hn
          have hflushed := hdone hsite (r := r) (by simp [CacheState.answer, hsite, hstart])
          simp only [CacheAction.act] at hflushed
          simp [CacheState.set, CacheAction.act, hflushed, hidle.1, OpPc.rank]
        · cases hn
          simp [CacheState.set, CacheAction.act, hidle.1, OpPc.rank]
      · cases hn
  | serve b now =>
      simp only [CacheState.next] at hn
      split at hn
      · rename_i p hp
        cases hn
        simp [CacheAction.act, hp, OpPc.rank]
      · cases hn
  | finish b now =>
      simp only [CacheState.next, Option.bind_eq_bind, Option.bind_eq_some_iff] at hn
      obtain ⟨c, hsite, hn⟩ := hn
      split at hn
      · rename_i p r hp
        cases hn
        have hflushed := hdone hsite (r := (p.finish (s.cache c) r now).2)
          (by simp [CacheState.answer, hsite, hp])
        simp only [CacheAction.act] at hflushed
        simp [CacheState.set, CacheAction.act, hflushed, hp, OpPc.rank]
      · cases hn

/-- A request that goes on does not begin, and a request that begins has begun. -/
theorem Ranked.fresh_step (h : Ranked y K A C s m ph) (hs : Steps s s' a x who c p q t none) :
    s'.fs.fresh a ≤ s.fs.fresh a ∧
      ((∃ b, x = .lock b) → (s.fs.world q.id).lock.pc a = .idle → s'.fs.fresh a < s.fs.fresh a) := by
  obtain ⟨τ, hrun⟩ := h.reachable
  obtain ⟨l, -, hinv⟩ := fsInv_run hrun
  obtain ⟨z, hsim⟩ := hinv.sim
  have hthread : s'.fs.thread a = some (c, p) := hs.thread_self
  have hworld := hs.world
  have hstep := hs.step
  have hplace := hinv.place a
  have hq := hs.request
  unfold FsState.fresh
  rw [hthread, hs.thread]
  cases p with
  | ret | fault => cases hq
  | acquire k p =>
      cases hq
      obtain ⟨⟨P, hc⟩, -⟩ := hinv.abs.cache k
      have hin : (t.lock.pc a).inAcquire = true := by
        obtain ⟨-, hallows, -⟩ := ClientReq.step_eq_some hstep
        have hk := hplace k
        rw [hs.thread] at hk
        exact acquire_step (hk.acquire_pc (of_decide_eq_true hallows)) hc hstep
      have hne : t.lock.pc a ≠ .idle := by
        intro heq
        rw [heq] at hin
        cases hin
      have hworld : s'.fs.world k = t := hworld
      simp only [hworld, if_neg hne]
      refine ⟨Nat.zero_le _, fun _ hidle => ?_⟩
      rw [if_pos (show (s.fs.world k).lock.pc a = .idle from hidle)]
      exact Nat.one_pos
  | release k p =>
      cases hq
      refine ⟨le_refl _, fun _ hidle => ?_⟩
      rcases hinv.abs.pc_release hsim hs.thread with hpc | ⟨r, hpc⟩ <;>
        rw [show (s.fs.world (ClientReq.release k).id) = s.fs.world k from rfl, hpc] at hidle <;>
        cases hidle
  | get k f | put k buf f =>
      cases hq
      refine ⟨le_refl _, ?_⟩
      rintro ⟨b, rfl⟩
      obtain ⟨-, hallows, -⟩ := ClientReq.step_eq_some hstep
      simp [ClientReq.allows] at hallows

theorem FsState.fresh_le (s : FsState) (a : Act) : s.fresh a ≤ 1 := by
  unfold FsState.fresh
  split
  · split <;> simp
  · simp

theorem FsState.work_some {s : FsState} (h : s.thread a = some (c, p)) :
    s.work m a = 2 * m a + 1 + s.fresh a := by
  simp [FsState.work, h]

theorem Steps.within (hs : Steps s s' a x who c p q t ans) (hm : ∀ b, b ≠ a → m' b = m b)
    (h : ∀ b d r, s.fs.thread b = some (d, r) → b ∈ A ∧ r.Within K (m b))
    (ha : (ans.elim p fun r => p.resume r).Within K (m' a)) :
    ∀ b d r, s'.fs.thread b = some (d, r) → b ∈ A ∧ r.Within K (m' b) := by
  intro b d r hb
  by_cases hba : b = a
  · subst hba
    rw [hs.thread_self] at hb
    cases hb
    exact ⟨(h b c p hs.thread).1, ha⟩
  · rw [(hs.other hba).1] at hb
    rw [hm b hba]
    exact h b d r hb

/-- A request returns. -/
theorem Ranked.answer {r : Answer} (h : Ranked y K A C s m ph)
    (hs : Steps s s' a x who c p q t (some r)) (hreach : (fsWaitSystem y).Reachable s') :
    ∃ m' ph', Ranked y K A C s' m' ph' ∧ s'.rank m' ph' K A C < s.rank m ph K A C := by
  obtain ⟨ha, hp⟩ := h.within a c p hs.thread
  obtain ⟨hq, n, hn, hrest⟩ := hp.resume hs.request
  obtain ⟨ph', hph'⟩ := h.support_step hs ha hq
  have hm : ∀ b, b ≠ a → update m a n b = m b := fun b hb => update_of_ne hb _ _
  refine ⟨update m a n, ph', ⟨hreach, hph', hs.within hm h.within ?_⟩, ?_⟩
  · rw [update_self]
    exact hrest r
  · refine rank_lt_of_work ha ?_ fun b hb => hs.work_other hb (hm b hb)
    rw [FsState.work_some hs.thread_self, FsState.work_some hs.thread, update_self, hn]
    have := s'.fs.fresh_le a
    omega

/-- A request goes on. -/
theorem Ranked.goes_on (h : Ranked y K A C s m ph) (hs : Steps s s' a x who c p q t none)
    (hreach : (fsWaitSystem y).Reachable s') :
    ∃ ph', Ranked y K A C s' m ph' ∧ s'.rank m ph' K A C < s.rank m ph K A C := by
  obtain ⟨ha, hp⟩ := h.within a c p hs.thread
  obtain ⟨hq, -⟩ := hp.resume hs.request
  have hwithin := hs.within (fun _ _ => rfl) h.within hp
  obtain ⟨hfresh, hbegins⟩ := h.fresh_step hs
  have hself : ∀ b, s'.fs.work m b ≤ s.fs.work m b := by
    intro b
    by_cases hb : b = a
    · subst hb
      rw [FsState.work_some hs.thread_self, FsState.work_some hs.thread]
      omega
    · exact le_of_eq (hs.work_other hb rfl)
  rcases hs.wake_cases with ⟨les, hx, hrun⟩ | ⟨hx, hwake⟩
  · by_cases hidle : (s.fs.world q.id).lock.pc a = .idle
    · obtain ⟨ph', hph'⟩ := h.support_step hs ha hq
      refine ⟨ph', ⟨hreach, hph', hwithin⟩, ?_⟩
      refine rank_lt_of_work ha ?_ fun b hb => hs.work_other hb rfl
      have := hbegins ⟨a, hx⟩ hidle
      rw [FsState.work_some hs.thread_self, FsState.work_some hs.thread]
      omega
    · obtain ⟨hi, hsup⟩ := h.support q.id hq
      obtain ⟨P, hi', hsup', hlt⟩ := WakeState.rank_lt hi hsup hrun hidle
      refine ⟨update ph q.id P, ⟨hreach, fun k hk => ?_, hwithin⟩, ?_⟩
      · by_cases hkq : k = q.id
        · subst hkq
          rw [update_self]
          exact ⟨hi', hsup'⟩
        · rw [update_of_ne hkq, hs.wake_of_ne hkq]
          exact h.support k hk
      · refine rank_lt_of_wake hq hself ?_ fun j hj => ⟨hs.wake_of_ne hj, update_of_ne hj _ _⟩
        rw [update_self]
        exact hlt
  · have hall : s'.wake = s.wake := by
      funext k
      by_cases hkq : k = q.id
      · rw [hkq, hwake]
      · exact hs.wake_of_ne hkq
    refine ⟨ph, ⟨hreach, by rw [hall]; exact h.support, hwithin⟩, ?_⟩
    refine rank_lt_of_rpc hq ha hself hall ?_ (fun b hb => ((hs.other hb).2 q.id).2) fun j hj => ?_
    · rw [hs.world]
      exact op_rank_lt hs.step hx
    · rw [hs.fs]
      exact update_of_ne hj _ _

theorem drain_next {mv : FsMove} (h : (fsDrain y).next s mv = some (s', es)) :
    (fsWaitSystem y).next s mv = some (s', es) := by
  cases mv with
  | step a x who => exact h
  | ret a => exact h
  | call => cases h
  | spurious => cases h

theorem next_ret (h : s.next (.ret a) = some (s', es)) :
    ∃ c r, s.fs.thread a = some (c, .ret r) ∧ s'.fs = s.fs.setThread a none ∧
      es = [.returned a c r] := by
  obtain ⟨hn, -⟩ := next_fs (by simp) h
  simp only [FsState.next] at hn
  split at hn
  · rename_i c r ht
    obtain ⟨hfs, hes⟩ := Prod.mk.inj (Option.some.inj hn)
    exact ⟨c, r, ht, hfs.symm, hes.symm⟩
  · cases hn

theorem Ranked.next (h : Ranked y K A C s m ph) {mv : FsMove}
    (hn : (fsDrain y).next s mv = some (s', es)) :
    ∃ m' ph', Ranked y K A C s' m' ph' ∧ s'.rank m' ph' K A C < s.rank m ph K A C := by
  have hreach : (fsWaitSystem y).Reachable s' := by
    obtain ⟨τ, hrun⟩ := h.reachable
    exact ⟨_, hrun.step (drain_next hn)⟩
  cases mv with
  | call => cases hn
  | spurious => cases hn
  | step a x who =>
      obtain ⟨-, -, c, p, q, t, ans, hs⟩ := next_step hn
      cases ans with
      | some r => exact h.answer hs hreach
      | none =>
          obtain ⟨ph', hranked, hlt⟩ := h.goes_on hs hreach
          exact ⟨m, ph', hranked, hlt⟩
  | ret a =>
      obtain ⟨c, r, ht, hfs, -⟩ := next_ret hn
      have hwake : s'.wake = s.wake := (next_fs (by simp) hn).2
      have hself : s'.fs.thread a = none := by
        rw [hfs]
        exact update_self ..
      have hother : ∀ b, b ≠ a → s'.fs.thread b = s.fs.thread b := by
        intro b hb
        rw [hfs]
        exact update_of_ne hb _ _
      refine ⟨m, ph, ⟨hreach, by rw [hwake]; exact h.support, fun b d p hb => ?_⟩, ?_⟩
      · have hba : b ≠ a := by
          rintro rfl
          rw [hself] at hb
          cases hb
        exact h.within b d p ((hother b hba) ▸ hb)
      · refine rank_lt_of_work (h.within a c _ ht).1 ?_ fun b hb => ?_
        · rw [FsState.work_some ht]
          simp [FsState.work, hself]
        · have hworld : s'.fs.world = s.fs.world := by
            rw [hfs]
            rfl
          unfold FsState.work FsState.fresh
          rw [hother b hb, hworld]

end

/-! ## The calls come to an end -/

section

variable {y : ExtentId → Option Extent} {s s' : FsWaits} {a : Act} {c : YfsCall} {p : Program}
  {es τ : List FsEvent} {as : List FsMove}

/-- Only finitely many threads are in calls, and their programs are finite. -/
theorem exists_threads {s : FsState} (h : (fsSystem y).Reachable s) :
    ∃ A : List Act, ∀ a c p, s.thread a = some (c, p) → a ∈ A ∧ ∃ n, p.Within c.ids n := by
  refine h.invariant (I := fun s => ∃ A : List Act, ∀ a c p, s.thread a = some (c, p) →
    a ∈ A ∧ ∃ n, p.Within c.ids n) ?_ ?_
  · rintro s ⟨-, hthread⟩
    exact ⟨[], fun a c p ht => by rw [hthread a] at ht; cases ht⟩
  · rintro s act s' es ⟨A, hA⟩ hn
    -- thread `b` goes on at `st`
    have hmove : ∀ b st, s'.thread = update s.thread b st →
        (∀ c p, st = some (c, p) → ∃ n, p.Within c.ids n) →
        ∃ A : List Act, ∀ a c p, s'.thread a = some (c, p) → a ∈ A ∧ ∃ n, p.Within c.ids n := by
      intro b st hthread hst
      refine ⟨b :: A, fun a c p ha => ?_⟩
      rw [hthread] at ha
      by_cases hab : a = b
      · subst hab
        rw [update_self] at ha
        exact ⟨List.mem_cons_self, hst c p ha⟩
      · rw [update_of_ne hab] at ha
        exact ⟨List.mem_cons_of_mem _ (hA a c p ha).1, (hA a c p ha).2⟩
    cases act with
    | call b c =>
        simp only [fsSystem, FsState.next] at hn
        split at hn <;> cases hn
        refine hmove b _ rfl fun c' p' heq => ?_
        cases heq
        exact ⟨7, within_program c⟩
    | ret b =>
        simp only [fsSystem, FsState.next] at hn
        split at hn <;> cases hn
        exact hmove b none rfl (by simp)
    | step b x =>
        simp only [fsSystem, FsState.next, Option.bind_eq_bind, Option.bind_eq_some_iff] at hn
        obtain ⟨⟨c, p⟩, hb, q, hq, ⟨t, ans⟩, -, hn⟩ := hn
        cases hn
        refine hmove b _ rfl fun c' p' heq => ?_
        cases heq
        obtain ⟨-, n, hp⟩ := hA b c p hb
        cases ans with
        | none => exact ⟨n, hp⟩
        | some r =>
            obtain ⟨-, m, -, hrest⟩ := hp.resume hq
            exact ⟨m, hrest r⟩

theorem Support.mono {l : LockState} {P : ClientId → Phase} {A A' : List Act} {C C' : List ClientId}
    (h : Support l P A C) (hA : A ⊆ A') (hC : C ⊆ C') (hown : ∀ a ∈ A', a.1 ∈ C') :
    Support l P A' C' :=
  ⟨fun a ha => hA (h.acts a ha), fun x hx => hC (h.clients x hx), hown⟩

/-- At finitely many locks there are only finitely many threads and clients. -/
theorem exists_supports (h : (fsWaitSystem y).Reachable s) (A₀ : List Act) (K : List Inum) :
    ∃ A C, A₀ ⊆ A ∧ (∀ a ∈ A, a.1 ∈ C) ∧
      ∀ k ∈ K, ∃ P, Lock.Inv (s.wake k).lock P ∧ Support (s.wake k).lock P A C := by
  induction K with
  | nil =>
      refine ⟨A₀, A₀.map Prod.fst, List.Subset.refl _, fun a ha => List.mem_map_of_mem ha, ?_⟩
      simp
  | cons k K ih =>
      obtain ⟨A, C, hA₀, hown, hK⟩ := ih
      obtain ⟨τ, hτ⟩ := reachable_wake h k
      obtain ⟨P, A', C', hi, hsup⟩ := Lock.exists_support ⟨τ, Lock.run_lock hτ⟩
      have hown' : ∀ a ∈ A ++ A', a.1 ∈ C ++ C' := by
        intro a ha
        rcases List.mem_append.mp ha with ha | ha
        · exact List.mem_append_left _ (hown a ha)
        · exact List.mem_append_right _ (hsup.own a ha)
      refine ⟨A ++ A', C ++ C', List.subset_append_of_subset_left _ hA₀, hown', fun j hj => ?_⟩
      rcases List.mem_cons.mp hj with rfl | hj
      · exact ⟨P, hi, Support.mono hsup (List.subset_append_right _ _)
          (List.subset_append_right _ _) hown'⟩
      · obtain ⟨Q, hi', hsup'⟩ := hK j hj
        exact ⟨Q, hi', Support.mono hsup' (List.subset_append_left _ _)
          (List.subset_append_left _ _) hown'⟩

theorem exists_ranked (h : (fsWaitSystem y).Reachable s) :
    ∃ K A C m ph, Ranked y K A C s m ph := by
  obtain ⟨τ, hrun⟩ := h
  obtain ⟨A₀, hA₀⟩ := exists_threads ⟨τ, fsWaits_run hrun⟩
  let K : List Inum := A₀.flatMap fun a => (s.fs.thread a).elim [] fun cp => cp.1.ids
  obtain ⟨A, C, hA, -, hK⟩ := exists_supports ⟨τ, hrun⟩ A₀ K
  have hphases : ∀ k, ∃ P, k ∈ K → Lock.Inv (s.wake k).lock P ∧ Support (s.wake k).lock P A C := by
    intro k
    by_cases hk : k ∈ K
    · obtain ⟨P, hP⟩ := hK k hk
      exact ⟨P, fun _ => hP⟩
    · exact ⟨fun _ => .idle, fun hmem => absurd hmem hk⟩
  have hbounds : ∀ a, ∃ n, ∀ c p, s.fs.thread a = some (c, p) → p.Within K n := by
    intro a
    cases ht : s.fs.thread a with
    | none => exact ⟨0, by simp⟩
    | some cp =>
        obtain ⟨hmem, n, hn⟩ := hA₀ a cp.1 cp.2 ht
        refine ⟨n, fun c p heq => ?_⟩
        cases heq
        refine hn.mono fun k hk => List.mem_flatMap.mpr ⟨a, hmem, ?_⟩
        simpa [ht] using hk
  choose ph hph using hphases
  choose m hm using hbounds
  exact ⟨K, A, C, m, ph, ⟨τ, hrun⟩, fun k hk => hph k hk,
    fun a c p ht => ⟨hA (hA₀ a c p ht).1, hm a c p ht⟩⟩

/-- The calls under way make no new calls, so they draw no numbers. -/
theorem drain_run (h : (fsWaitSystem y).Run τ s) (he : (fsDrain y).exec s as = some (s', es)) :
    (fsWaitSystem y).Run (τ ++ es) s' ∧ numbers (τ ++ es) = numbers τ := by
  induction as generalizing s τ es with
  | nil =>
      cases he
      simpa using h
  | cons mv as ih =>
      obtain ⟨s₁, es₁, es₂, hn, has, rfl⟩ := System.exec_cons.mp he
      obtain ⟨hrun, hnumbers⟩ := ih (h.step (drain_next hn)) has
      rw [← List.append_assoc]
      refine ⟨hrun, hnumbers.trans ?_⟩
      cases mv with
      | call => cases hn
      | spurious => cases hn
      | step a x who =>
          obtain ⟨rfl, -⟩ := next_step hn
          rw [List.append_nil]
      | ret a =>
          obtain ⟨c, r, -, -, rfl⟩ := next_ret hn
          exact numbers_returned

/-- A call that was under way still is, or it has returned. -/
theorem returned_or_thread (he : (fsDrain y).exec s as = some (s', es))
    (ht : s.fs.thread a = some (c, p)) :
    (∃ r, .returned a c r ∈ es) ∨ ∃ q, s'.fs.thread a = some (c, q) := by
  induction as generalizing s es p with
  | nil =>
      cases he
      exact .inr ⟨p, ht⟩
  | cons mv as ih =>
      obtain ⟨s₁, es₁, es₂, hn, has, rfl⟩ := System.exec_cons.mp he
      have hgo : (∃ r, .returned a c r ∈ es₁) ∨ ∃ q, s₁.fs.thread a = some (c, q) := by
        cases mv with
        | call => cases hn
        | spurious => cases hn
        | step b x who =>
            obtain ⟨-, -, d, r, q, t, ans, hs⟩ := next_step hn
            by_cases hab : a = b
            · subst hab
              rw [hs.thread] at ht
              cases ht
              exact .inr ⟨_, hs.thread_self⟩
            · rw [(hs.other hab).1]
              exact .inr ⟨p, ht⟩
        | ret b =>
            obtain ⟨d, r, hb, hfs, rfl⟩ := next_ret hn
            by_cases hab : a = b
            · subst hab
              rw [hb] at ht
              cases ht
              exact .inl ⟨r, by simp⟩
            · refine .inr ⟨p, ?_⟩
              rw [hfs]
              exact (update_of_ne hab _ _).trans ht
      rcases hgo with ⟨r, hr⟩ | ⟨q, hq⟩
      · exact .inl ⟨r, List.mem_append_left _ hr⟩
      · exact (ih has hq).imp_left fun ⟨r, hr⟩ => ⟨r, List.mem_append_right _ hr⟩

/-- There is a bound on the number of steps, whatever their order. -/
theorem drain_bounded (h : (fsWaitSystem y).Reachable s) :
    ∃ N, ∀ as s' es, (fsDrain y).exec s as = some (s', es) → as.length ≤ N := by
  obtain ⟨K, A, C, m, ph, hranked⟩ := exists_ranked h
  refine ⟨s.rank m ph K A C, fun as s' es he => ?_⟩
  refine exec_length_le (S := fsDrain y)
    (B := fun s n => ∃ m ph, Ranked y K A C s m ph ∧ s.rank m ph K A C = n) ?_
    ⟨m, ph, hranked, rfl⟩ he
  rintro s n mv s' es ⟨m, ph, hranked, rfl⟩ hn
  obtain ⟨m', ph', hranked', hlt⟩ := hranked.next hn
  exact ⟨_, hlt, m', ph', hranked', rfl⟩

/-- On a new file system where no number has been drawn twice: when nobody can go on, every call has
returned, unless one of them has thrown an exception. -/
theorem at_rest_of_run {attr : Extents.Attr} (h : (fsWaitSystem (mkfs attr)).Run τ s)
    (hnodup : (1 :: numbers τ).Nodup) (hstuck : ∀ a, ¬ s.GoesOn a)
    (hfault : ∀ a c, s.fs.thread a ≠ some (c, .fault)) (a : Act) : s.fs.thread a = none := by
  obtain ⟨l, hlocked, hinv⟩ := fsInv_run h
  have hstart : ∀ i, (mkfs attr i).map Extent.name ≠ none → i = 1 := by
    intro i hi
    by_contra hne
    simp [mkfs, hne] at hi
  exact hinv.at_rest (ordered_run hstart hlocked hnodup) hstuck hfault a

end

end Yfs.Fs
