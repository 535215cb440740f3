import Yfs.Fs.Programs

/-!
# Calls of the file system client take effect at once

Any number of clients, each with any number of threads, call `create`, `lookup`, `read`, `write`,
`setattr` and `getdata`, over the caching locks and the extent caches of `cacheWorld`. A thread makes
the requests of its program one after the other, and each request takes any number of steps, between
which the other threads go on. Still an observer of the calls and of what they return cannot tell
this from a file system in which each call runs at once, on one map of extents, at some moment
between its call and its return (`yfs_atomic`).

There are two layers. Under its lock the contents of an extent are what they are in the locked store
of `lockedSystem`, whichever client has them in its cache: `Abs` ties the two together, and each step
is one request there or none. What `lockedSystem` does with two-phase transactions is known.
-/

namespace Yfs.Fs

open Yfs.Lib Yfs.Extents
open Yfs.Lock (Act ClientId Phase)
open Yfs.Rpc (Bytes)

namespace Program

/-- What the thread waits for. -/
def request : Program → Option ClientReq
  | ret _ | fault => none
  | acquire lid _ => some (.acquire lid)
  | release lid _ => some (.release lid)
  | get eid _ => some (.get eid)
  | put eid buf _ => some (.put eid buf)

/-- Where the thread goes on when its request has returned `r`. -/
def resume (r : Answer) : Program → Program
  | ret r' => ret r'
  | fault => fault
  | acquire _ next => next
  | release _ next => next
  | get _ next => next r.ret r.buf
  | put _ _ next => next r.ret

end Program

/-- The locks and extents, and what remains to be done of each call. -/
structure FsState where
  world : ExtentId → CacheState
  thread : Act → Option (YfsCall × Program)

inductive FsAction where
  | call (a : Act) (c : YfsCall)
  /-- Thread `a` takes a step in its request. -/
  | step (a : Act) (x : CacheAction)
  | ret (a : Act)
  deriving DecidableEq, Repr

abbrev FsEvent := TxnEvent Act YfsCall YfsResult

namespace FsState

variable (s : FsState)

def setThread (a : Act) (t : Option (YfsCall × Program)) : FsState :=
  { s with thread := Function.update s.thread a t }

def setWorld (eid : ExtentId) (t : CacheState) : FsState :=
  { s with world := Function.update s.world eid t }

def next : FsAction → Option (FsState × List FsEvent)
  | .call a c =>
      match s.thread a with
      | none => some (s.setThread a (some (c, c.program)), [.called a c])
      | some _ => none
  | .step a x => do
      let (c, p) ← s.thread a
      let q ← p.request
      let (t, ans) ← q.step a (s.world q.id) x
      return ((s.setWorld q.id t).setThread a (some (c, ans.elim p fun r => p.resume r)), [])
  | .ret a =>
      match s.thread a with
      | some (c, .ret r) => some (s.setThread a none, [.returned a c r])
      | _ => none

end FsState

/-- All clients, with the extents `x` on the server before the run. -/
def fsSystem (x : ExtentId → Option Extent) : System FsState FsAction FsEvent where
  init s := (cacheWorld x).init s.world ∧ ∀ a, s.thread a = none
  next := FsState.next

/-! ## The locked store -/

/-- The contents of the extents under their locks. -/
abbrev FsLocked := Locked Act Inum (Option Bytes) YfsCall YfsResult

/-- Where a thread is, and where it is in the system with the locked store. -/
inductive Refines (s : FsState) (a : Act) :
    Option (YfsCall × Program) → Option (YfsCall × Txn Inum (Option Bytes) YfsResult) → Prop where
  | idle : Refines s a none none
  | same {c : YfsCall} {p : Program} : Refines s a (some (c, p)) (some (c, p.txn))
  /-- Inside `release` the lock is gone before the request returns. -/
  | releasing {c : YfsCall} {k : Inum} {p : Program} {q : Lock.RelPc} :
      (s.world k).lock.pc a = .releasing q →
      Refines s a (some (c, .release k p)) (some (c, p.txn))

/-- The locked store `l` is what the clients and the servers have between them. -/
structure Abs (s : FsState) (l : FsLocked) : Prop where
  cache : ∀ k, (∃ ph, CacheInv (s.world k) ph (l.store k)) ∧ Answered (s.world k)
  holder : ∀ k a, l.holder k = some a ↔ (s.world k).lock.pc a = .holding
  getting : ∀ k a, (s.world k).lock.pc a = .holding → ((s.world k).op a).getting = true
  thread : ∀ a, Refines s a (s.thread a) (l.thread a)

variable {s s' : FsState} {l l' : FsLocked} {a b : Act} {k : Inum} {t : CacheState}
  {st : Option (YfsCall × Program)} {c : YfsCall} {p : Program} {x : CacheAction}
  {es : List FsEvent} {ans : Option Answer}

/-- Thread `a` takes a step at the lock and the extent `k`. -/
theorem Abs.of_step (h : Abs s l)
    (hother : ∀ b, b ≠ a → t.lock.pc b = (s.world k).lock.pc b ∧ t.op b = (s.world k).op b)
    (hcache : (∃ ph, CacheInv t ph (l'.store k)) ∧ Answered t)
    (hstore : ∀ j, j ≠ k → l'.store j = l.store j)
    (hholder : ∀ j b, ¬ (j = k ∧ b = a) → (l'.holder j = some b ↔ l.holder j = some b))
    (hmine : l'.holder k = some a ↔ t.lock.pc a = .holding)
    (hget : t.lock.pc a = .holding → (t.op a).getting = true)
    (hthread : ∀ b, b ≠ a → l'.thread b = l.thread b)
    (ha : Refines ((s.setWorld k t).setThread a st) a st (l'.thread a)) :
    Abs ((s.setWorld k t).setThread a st) l' := by
  have hworld : ∀ j, j ≠ k → ((s.setWorld k t).setThread a st).world j = s.world j :=
    fun j hj => Function.update_of_ne hj _ _
  have hself : ((s.setWorld k t).setThread a st).world k = t := Function.update_self ..
  constructor
  case cache =>
    intro j
    by_cases hj : j = k
    · subst hj
      rw [hself]
      exact hcache
    · rw [hworld j hj, hstore j hj]
      exact h.cache j
  case holder =>
    intro j b
    by_cases hj : j = k
    · subst hj
      rw [hself]
      by_cases hb : b = a
      · subst hb
        exact hmine
      · rw [hholder j b (fun h => hb h.2), (hother b hb).1]
        exact h.holder j b
    · rw [hholder j b (fun h => hj h.1), hworld j hj]
      exact h.holder j b
  case getting =>
    intro j b hb
    by_cases hj : j = k
    · subst hj
      rw [hself] at hb ⊢
      by_cases hba : b = a
      · subst hba
        exact hget hb
      · rw [(hother b hba).1] at hb
        rw [(hother b hba).2]
        exact h.getting j b hb
    · rw [hworld j hj] at hb ⊢
      exact h.getting j b hb
  case thread =>
    intro b
    by_cases hb : b = a
    · subst hb
      rw [show ((s.setWorld k t).setThread b st).thread b = st from Function.update_self ..]
      exact ha
    · rw [show ((s.setWorld k t).setThread a st).thread b = s.thread b from
        Function.update_of_ne hb _ _, hthread b hb]
      have hold := h.thread b
      generalize s.thread b = y, l.thread b = z at hold
      cases hold with
      | idle => exact .idle
      | same => exact .same
      | @releasing c j p q hq =>
          refine .releasing (q := q) ?_
          by_cases hj : j = k
          · subst hj
            rw [hself, (hother b hb).1]
            exact hq
          · rw [hworld j hj]
            exact hq

/-- The locked store can go on, with the events `es`, to where it agrees with `s'`. -/
def CanMatch (m₀ : Inum → Option Bytes) (l : FsLocked) (s' : FsState) (es : List FsEvent) : Prop :=
  ∃ as l', (lockedSystem (fun c => c.program.txn) m₀).exec l as = some (l', es) ∧ Abs s' l'

variable {m₀ : Inum → Option Bytes}

theorem CanMatch.stay (h : Abs s' l) : CanMatch m₀ l s' [] := ⟨[], l, rfl, h⟩

theorem CanMatch.request {q : Txn Inum (Option Bytes) YfsResult} (ht : l.thread a = some (c, q))
    (hq : l.request a c q = some (l', es)) (h : Abs s' l') : CanMatch m₀ l s' es :=
  ⟨[.step a], l', System.exec_singleton.mpr (by simpa [lockedSystem, ht] using hq), h⟩

/-! ## One request -/

/-- What a step at the lock and the extent of a request keeps. -/
theorem Abs.answered (h : Abs s l) {q : ClientReq}
    (hs : q.step a (s.world k) x = some (t, ans)) : Answered t := by
  obtain ⟨⟨ph, hinv⟩, hans⟩ := h.cache k
  obtain ⟨-, -, es, hn, -⟩ := ClientReq.step_eq_some hs
  exact hans.next hinv hn

/-- Nobody holds a lock that somebody else has just got. -/
theorem Abs.free_of_acquired (h : Abs s l) {d : Option Bytes} {ph : ClientId → Phase}
    (hinv : CacheInv t ph d) (hmine : (s.world k).lock.pc a ≠ .holding)
    (hother : ∀ b, b ≠ a → t.lock.pc b = (s.world k).lock.pc b ∧ t.op b = (s.world k).op b)
    (hgot : t.lock.pc a = .holding) : l.holder k = none := by
  cases hk : l.holder k with
  | none => rfl
  | some b =>
      have hb := (h.holder k b).mp hk
      have hne : b ≠ a := by
        rintro rfl
        exact hmine hb
      have hsite : ∀ c, t.lock.pc c = .holding → (t.lock.pc c).site c = some c.1 := by
        intro c hc
        rw [hc]
        rfl
      rw [← (hother b hne).1] at hb
      exact absurd (hinv.lock.site_unique (hsite b hb) (hsite a hgot)).1 hne

theorem Abs.acquire (h : Abs s l) (hl : l.thread a = some (c, (Program.acquire k p).txn))
    (hs : (ClientReq.acquire k).step a (s.world k) x = some (t, ans)) :
    CanMatch m₀ l ((s.setWorld k t).setThread a
      (some (c, ans.elim (.acquire k p) fun r => (Program.acquire k p).resume r))) [] := by
  obtain ⟨⟨ph, hinv⟩, -⟩ := h.cache k
  obtain ⟨⟨ph', hinv'⟩, hgot⟩ := hinv.acquire hs
  have hother := fun b (hb : b ≠ a) => ClientReq.step_other hs hb
  have hcache : (∃ ph, CacheInv t ph (l.store k)) ∧ Answered t := ⟨⟨ph', hinv'⟩, h.answered hs⟩
  obtain ⟨-, hallows, -, -, hans⟩ := ClientReq.step_eq_some hs
  have hmine : (s.world k).lock.pc a ≠ .holding := by simpa [ClientReq.allows] using hallows
  cases ans with
  | none =>
      have hnot : t.lock.pc a ≠ .holding := by
        intro hp
        simp [ClientReq.answer, hp] at hans
      apply CanMatch.stay
      refine h.of_step hother hcache (fun _ _ => rfl) (fun _ _ _ => Iff.rfl) ?_
        (fun hp => absurd hp hnot) (fun _ _ => rfl) ?_
      · rw [h.holder]
        exact iff_of_false hmine hnot
      · rw [hl]
        exact .same
  | some r =>
      obtain ⟨hp, hop⟩ := hgot rfl
      have hfree := h.free_of_acquired hinv' hmine hother hp
      refine CanMatch.request hl (by simp only [Program.txn, Locked.request, hfree]; rfl) ?_
      refine h.of_step hother hcache (fun _ _ => rfl) ?_ (by simp [Locked.goOn, hp])
        (fun _ => by rw [hop]; rfl) (fun b hb => Function.update_of_ne hb _ _) ?_
      · intro j b hjb
        simp only [Locked.goOn, Function.update_apply]
        split
        · rename_i hj
          subst hj
          simp only [hfree, Option.some.injEq, reduceCtorEq, iff_false]
          rintro rfl
          exact hjb ⟨rfl, rfl⟩
        · rfl
      · simp only [Locked.goOn, Function.update_self]
        exact .same

theorem Abs.release_refines (hs : (ClientReq.release k).step a (s.world k) x = some (t, ans))
    (hp : (s.world k).lock.pc a = .holding ∨ ∃ q, (s.world k).lock.pc a = .releasing q) :
    t.lock.pc a ≠ .holding ∧
      let p' := ans.elim (.release k p) fun r => (Program.release k p).resume r
      Refines ((s.setWorld k t).setThread a (some (c, p'))) a (some (c, p')) (some (c, p.txn)) := by
  rcases release_step hp hs with ⟨hans, hpc⟩ | ⟨rfl, q, hpc⟩
  · obtain ⟨r, rfl⟩ := Option.isSome_iff_exists.mp hans
    exact ⟨by simp [hpc], .same⟩
  · refine ⟨by simp [hpc], .releasing (q := q) ?_⟩
    rw [show ((s.setWorld k t).setThread a _).world k = t from Function.update_self ..]
    exact hpc

theorem Abs.release (h : Abs s l) (hl : l.thread a = some (c, (Program.release k p).txn))
    (hk : l.holder k = some a)
    (hs : (ClientReq.release k).step a (s.world k) x = some (t, ans)) :
    CanMatch m₀ l ((s.setWorld k t).setThread a
      (some (c, ans.elim (.release k p) fun r => (Program.release k p).resume r))) [] := by
  obtain ⟨⟨ph, hinv⟩, -⟩ := h.cache k
  obtain ⟨hnot, hthread⟩ := Abs.release_refines (c := c) (p := p) hs (.inl ((h.holder k a).mp hk))
  refine CanMatch.request hl (by simp only [Program.txn, Locked.request, hk]; rfl) ?_
  refine h.of_step (fun b hb => ClientReq.step_other hs hb) ⟨hinv.release hs, h.answered hs⟩
    (fun _ _ => rfl) ?_ (by simp [Locked.goOn, hnot]) (fun hp => absurd hp hnot)
    (fun b hb => Function.update_of_ne hb _ _) ?_
  · intro j b hjb
    simp only [Locked.goOn, Function.update_apply]
    split
    · rename_i hj
      subst hj
      simp only [hk, Option.some.injEq, reduceCtorEq, false_iff]
      rintro rfl
      exact hjb ⟨rfl, rfl⟩
    · rfl
  · simp only [Locked.goOn, Function.update_self]
    exact hthread

/-- The lock is gone, and `release` goes on. -/
theorem Abs.releasing (h : Abs s l) (hl : l.thread a = some (c, p.txn)) {q : Lock.RelPc}
    (hq : (s.world k).lock.pc a = .releasing q)
    (hs : (ClientReq.release k).step a (s.world k) x = some (t, ans)) :
    CanMatch m₀ l ((s.setWorld k t).setThread a
      (some (c, ans.elim (.release k p) fun r => (Program.release k p).resume r))) [] := by
  obtain ⟨⟨ph, hinv⟩, -⟩ := h.cache k
  obtain ⟨hnot, hthread⟩ := Abs.release_refines (c := c) (p := p) hs (.inr ⟨q, hq⟩)
  apply CanMatch.stay
  refine h.of_step (fun b hb => ClientReq.step_other hs hb) ⟨hinv.release hs, h.answered hs⟩
    (fun _ _ => rfl) (fun _ _ _ => Iff.rfl) ?_ (fun hp => absurd hp hnot) (fun _ _ => rfl) ?_
  · rw [h.holder, hq]
    exact iff_of_false (by simp) hnot
  · rw [hl]
    exact hthread

theorem Abs.get (h : Abs s l) {f : Extents.Status → Bytes → Program}
    (hl : l.thread a = some (c, (Program.get k f).txn)) (hk : l.holder k = some a)
    (hs : (ClientReq.get k).step a (s.world k) x = some (t, ans)) :
    CanMatch m₀ l ((s.setWorld k t).setThread a
      (some (c, ans.elim (.get k f) fun r => (Program.get k f).resume r))) [] := by
  obtain ⟨⟨ph, hinv⟩, hanswered⟩ := h.cache k
  have hp := (h.holder k a).mp hk
  obtain ⟨hinv', hp', hget', -⟩ := hinv.get hp (h.getting k a hp) hs
  have hother := fun b (hb : b ≠ a) => ClientReq.step_other hs hb
  cases ans with
  | none =>
      apply CanMatch.stay
      refine h.of_step hother ⟨hinv', h.answered hs⟩ (fun _ _ => rfl) (fun _ _ _ => Iff.rfl)
        (iff_of_true hk hp') (fun _ => hget') (fun _ _ => rfl) ?_
      rw [hl]
      exact .same
  | some r =>
      have hr := hinv.get_contents hanswered hp (h.getting k a hp) hs
      refine CanMatch.request hl rfl ?_
      refine h.of_step hother ⟨hinv', h.answered hs⟩ (fun _ _ => rfl) (fun _ _ _ => Iff.rfl)
        (iff_of_true hk hp') (fun _ => hget') (fun b hb => Function.update_of_ne hb _ _) ?_
      simp only [Locked.goOn, Function.update_self, ← hr]
      exact .same

theorem Abs.put (h : Abs s l) {buf : Bytes} {f : Extents.Status → Program}
    (hl : l.thread a = some (c, (Program.put k buf f).txn))
    (hs : (ClientReq.put k buf).step a (s.world k) x = some (t, ans)) :
    CanMatch m₀ l ((s.setWorld k t).setThread a
      (some (c, ans.elim (.put k buf f) fun r => (Program.put k buf f).resume r))) [] := by
  obtain ⟨⟨ph, hinv⟩, -⟩ := h.cache k
  obtain ⟨⟨ph', hinv'⟩, hp, hp', rfl⟩ := hinv.put hs
  refine CanMatch.request hl rfl ?_
  refine h.of_step (fun b hb => ClientReq.step_other hs hb) ⟨⟨ph', ?_⟩, h.answered hs⟩
    (fun j hj => Function.update_of_ne hj _ _) (fun _ _ _ => Iff.rfl)
    (iff_of_true ((h.holder k a).mpr hp) hp') (fun _ => ?_)
    (fun b hb => Function.update_of_ne hb _ _) ?_
  · simpa [Locked.goOn] using hinv'
  · exact put_getting hs
  · simp only [Locked.goOn, Function.update_self]
    exact .same

/-! ## One step -/

/-- A call begins or returns. -/
theorem Abs.of_thread (h : Abs s l) (hstore : l'.store = l.store) (hholder : l'.holder = l.holder)
    (hthread : ∀ b, b ≠ a → l'.thread b = l.thread b)
    (ha : Refines (s.setThread a st) a st (l'.thread a)) : Abs (s.setThread a st) l' := by
  have hworld : s.setWorld 0 (s.world 0) = s := by simp [FsState.setWorld]
  rw [← hworld]
  refine h.of_step (fun _ _ => ⟨rfl, rfl⟩) ?_ (fun _ _ => by rw [hstore]) (fun _ _ _ => by rw [hholder])
    ?_ (h.getting 0 a) hthread ?_
  · rw [hstore]
    exact h.cache 0
  · rw [hholder]
    exact h.holder 0 a
  · rw [hworld]
    exact ha

theorem Abs.call (h : Abs s l) (ht : s.thread a = none) :
    CanMatch m₀ l (s.setThread a (some (c, c.program))) [.called a c] := by
  have hold := h.thread a
  rw [ht] at hold
  generalize hl : l.thread a = y at hold
  cases hold
  refine ⟨[.call a c], l.goOn a c c.program.txn, ?_, ?_⟩
  · exact System.exec_singleton.mpr (by simp [lockedSystem, hl])
  · refine h.of_thread rfl rfl (fun b hb => Function.update_of_ne hb _ _) ?_
    simp only [Locked.goOn, Function.update_self]
    exact .same

theorem Abs.ret (h : Abs s l) {r : YfsResult} (ht : s.thread a = some (c, .ret r)) :
    CanMatch m₀ l (s.setThread a none) [.returned a c r] := by
  have hold := h.thread a
  rw [ht] at hold
  generalize hl : l.thread a = y at hold
  cases hold
  refine CanMatch.request hl rfl ?_
  refine h.of_thread rfl rfl (fun b hb => Function.update_of_ne hb _ _) ?_
  simp only [Function.update_self]
  exact .idle

/-- One step of a thread in a request. -/
theorem Abs.step (h : Abs s l) {y : Atomic Act Inum (Option Bytes) YfsCall YfsResult}
    (hsim : Sim (fun c => c.program.txn) l y) {q : ClientReq} (ht : s.thread a = some (c, p))
    (hq : p.request = some q) (hs : q.step a (s.world q.id) x = some (t, ans)) :
    CanMatch m₀ l ((s.setWorld q.id t).setThread a
      (some (c, ans.elim p fun r => p.resume r))) [] := by
  have hold := h.thread a
  rw [ht] at hold
  generalize hl : l.thread a = z at hold
  cases hold with
  | releasing hpc =>
      cases hq
      exact h.releasing hl hpc hs
  | same =>
      cases p with
      | ret r => cases hq
      | fault => cases hq
      | acquire lid p =>
          cases hq
          exact h.acquire hl hs
      | release lid p =>
          cases hq
          exact h.release hl (hsim.holds_release hl) hs
      | get eid f =>
          cases hq
          exact h.get hl (hsim.holds_read hl) hs
      | put eid buf f =>
          cases hq
          exact h.put hl hs

theorem Abs.next (h : Abs s l) {y : Atomic Act Inum (Option Bytes) YfsCall YfsResult}
    (hsim : Sim (fun c => c.program.txn) l y) {act : FsAction}
    (hn : s.next act = some (s', es)) : CanMatch m₀ l s' es := by
  cases act with
  | call a c =>
      simp only [FsState.next] at hn
      split at hn
      · cases hn
        exact h.call ‹_›
      · cases hn
  | step a x =>
      simp only [FsState.next, Option.bind_eq_bind, Option.bind_eq_some_iff] at hn
      obtain ⟨⟨c, p⟩, ht, q, hq, ⟨t, ans⟩, hs, hn⟩ := hn
      cases hn
      exact h.step hsim ht hq hs
  | ret a =>
      simp only [FsState.next] at hn
      split at hn
      · cases hn
        exact h.ret ‹_›
      · cases hn

theorem abs_init {y : ExtentId → Option Extent} (h : (fsSystem y).init s) :
    Abs s ⟨fun i => (y i).map Extent.name, fun _ => none, fun _ => none⟩ := by
  obtain ⟨hworld, hthread⟩ := h
  have hstart : ∀ k, s.world k = ⟨.initial, fun _ => none, y k, fun _ => .idle⟩ := hworld
  constructor
  · intro k
    refine ⟨(cacheInv_run (.start (hworld k))).1, fun a flag r hr => ?_⟩
    simp [hstart k] at hr
  · intro k a
    simp [hstart k, Lock.LockState.initial]
  · intro k a ha
    simp [hstart k, Lock.LockState.initial] at ha
  · intro a
    rw [hthread a]
    exact .idle

/-- Whatever is seen of a run is seen of a run of the locked store. -/
theorem exists_locked {y : ExtentId → Option Extent} {τ : List FsEvent}
    (h : (fsSystem y).Run τ s) :
    ∃ l, (lockedSystem (fun c : YfsCall => c.program.txn) fun i => (y i).map Extent.name).Run τ l ∧
      Abs s l := by
  induction h with
  | start hs => exact ⟨_, .start rfl, abs_init hs⟩
  | step _ hn ih =>
      obtain ⟨l, hrun, habs⟩ := ih
      obtain ⟨y, -, hsim⟩ := exists_sim growing_program run_program hrun
      obtain ⟨as, l', hexec, habs'⟩ := habs.next hsim hn
      exact ⟨l', hrun.exec hexec, habs'⟩

/-- In every run, whatever the clients' threads call and however their steps are interleaved, the
calls and their results are those of a run in which each call takes effect at once, between its call
and its return, on the map of extents that the server had at the start. -/
theorem yfs_atomic {y : ExtentId → Option Extent} {τ : List FsEvent} (h : (fsSystem y).Run τ s) :
    ∃ m, (atomicSystem (fun (c : YfsCall) m => c.exec m) fun i => (y i).map Extent.name).Run τ m := by
  obtain ⟨l, hrun, -⟩ := exists_locked h
  obtain ⟨m, hatomic, -⟩ := exists_sim growing_program run_program hrun
  exact ⟨m, hatomic⟩

/-- One client writes to a file while another asks for its lock, and reads what is written before the
write has returned. -/
theorem yfs_atomic_write_read :
    let x : ExtentId → Option Extent := fun eid => if eid = 0x80000007 then some ⟨[], {}⟩ else none
    let w : YfsCall := .write 0x80000007 [104, 105] 0
    let r : YfsCall := .read 0x80000007 2 0
    ∃ τ s m, (fsSystem x).Run τ s ∧
      τ = [.called ("c1", 0) w, .called ("c2", 0) r,
        .returned ("c2", 0) r (.read .ok (some [104, 105])), .returned ("c1", 0) w (.status .ok)] ∧
      (atomicSystem (fun (c : YfsCall) m => c.exec m) fun i => (x i).map Extent.name).Run τ m := by
  intro x w r
  let c1 : Act := ("c1", 0)
  let c2 : Act := ("c2", 0)
  let lock : Act → FsAction := fun a => .step a (.lock a)
  let start : Act → Op → FsAction := fun a op => .step a (.start a op 9)
  let rpc : Act → List FsAction := fun a => [.step a (.serve a 9), .step a (.finish a 9)]
  let acts : List FsAction :=
    [.call c1 w, .call c2 r, lock c1, lock c1, lock c1, start c1 .get] ++ rpc c1 ++
    [start c1 (.put [104, 105]), lock c2, lock c2, lock c2, lock c2, lock c1, start c1 .flush] ++
    rpc c1 ++ [lock c1, lock c1, lock c1, lock c1, lock c2, lock c2, lock c2, start c2 .get] ++
    rpc c2 ++ [lock c2, .ret c2, .ret c1]
  obtain ⟨τ, s, hrun, hτ⟩ := System.exists_run (S := fsSystem x)
    (s := ⟨fun eid => ⟨.initial, fun _ => none, x eid, fun _ => .idle⟩, fun _ => none⟩)
    (p := fun τ _ => τ = [.called c1 w, .called c2 r,
      .returned c2 r (.read .ok (some [104, 105])), .returned c1 w (.status .ok)])
    acts ⟨fun _ => rfl, fun _ => rfl⟩ (by decide +kernel)
  obtain ⟨m, hm⟩ := yfs_atomic hrun
  exact ⟨τ, s, m, hrun, hτ, hm⟩

end Yfs.Fs
