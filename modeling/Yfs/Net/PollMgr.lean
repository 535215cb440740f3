import Yfs.Lib.System
import Yfs.Net.Aio

/-!
# The poll manager

`PollMgr` keeps a callback for each descriptor. One thread runs `wait_loop`: it announces that changes
are done, waits in `select` on copies of the sets, and calls the callbacks of the descriptors that are
ready, without holding the mutex. Other threads add and delete callbacks. `block_remove_fd` stops
watching a descriptor and waits for the next announcement before it takes the callback away; it waits
once, without a loop around the wait. A step of `PollMgr` is a section under `m_` or an access of
`callbacks_` without it, and `none` says that the process stops.

When `block_remove_fd` has returned, no callback of the descriptor should run or start until the
descriptor is added again. That is so exactly if nothing wakes the wait spuriously and nobody adds the
descriptor while its removal waits (`removed_quiet_iff`, `removed_runs_spurious`).
-/

namespace Yfs.Net

open Yfs.Lib

/-- An `aio_callback`. -/
abbrev Callback := Nat

/-- The two functions of a callback. -/
inductive CbKind where
  | read
  | write
  deriving DecidableEq, Repr

/-- The one of two things that belongs to `read_cb` or to `write_cb`. -/
def CbKind.pick {α : Type} (r w : α) : CbKind → α
  | read => r
  | write => w

/-- The descriptor is watched for a function of its callback. -/
def SelectAio.watches (s : SelectAio) (k : CbKind) (fd : Nat) : Bool := k.pick s.rfds s.wfds fd

/-- Where the thread of `wait_loop` is. -/
inductive PollPc where
  /-- Before the section at the top of the loop. -/
  | top
  /-- Before the sets are copied. -/
  | copy
  /-- In `select`. -/
  | select (trfds twfds : Nat → Bool) (high : Nat)
  /-- Before `if (callbacks_[fd])` for the next one of the descriptors that are ready. -/
  | scan (readable writable : List Nat)
  /-- Between `if (callbacks_[fd])` and the call. -/
  | tested (k : CbKind) (fd : Nat) (readable writable : List Nat)
  /-- In the callback. -/
  | running (k : CbKind) (fd : Nat) (cb : Callback) (readable writable : List Nat)

namespace PollPc

/-- The thread runs `fd`'s callback, or may come to it before it is at the top again. -/
def may (k : CbKind) (fd : Nat) : PollPc → Bool
  | top | copy => false
  | select r w _ => k.pick r w fd
  | scan rs ws => (k.pick rs ws).contains fd
  | tested k' fd' rs ws => (k' = k ∧ fd' = fd) || (k.pick rs ws).contains fd
  | running k' fd' _ rs ws => (k' = k ∧ fd' = fd) || (k.pick rs ws).contains fd

/-- The thread runs a callback of `fd`. -/
def runs (k : CbKind) (fd : Nat) : PollPc → Bool
  | running k' fd' _ _ _ => k' = k ∧ fd' = fd
  | _ => false

theorem may_of_runs {k : CbKind} {fd : Nat} {pc : PollPc} (h : pc.runs k fd = true) :
    pc.may k fd = true := by
  cases pc with
  | running => exact Bool.or_eq_true_iff.mpr (.inl h)
  | _ => cases h

end PollPc

/-- Where a call of `block_remove_fd` is. -/
inductive RemoverPc where
  /-- In `pthread_cond_wait`; `woken` if there was a broadcast since it began. -/
  | waiting (woken : Bool)
  | returned
  deriving DecidableEq, Repr

/-- A call of `block_remove_fd`. -/
structure Remover where
  fd : Nat
  pc : RemoverPc
  deriving DecidableEq, Repr

/-- The broadcast, for one call. -/
def Remover.wakeUp (x : Remover) : Remover :=
  match x.pc with
  | .waiting _ => { x with pc := .waiting true }
  | .returned => x

structure PollMgr where
  aio : SelectAio
  callbacks : Nat → Option Callback
  pendingChange : Bool
  pc : PollPc
  removers : List Remover

/-- What the thread of `wait_loop` does next. -/
inductive PollAction where
  | top
  | copy
  /-- `select` returns; `r` and `w` are ready. -/
  | ready (r w : List Nat)
  | test
  | call
  | finish

namespace PollMgr

def new (pipe : Nat) : PollMgr where
  aio := .new pipe
  callbacks := fun _ => none
  pendingChange := false
  pc := .top
  removers := []

/-! ## The functions -/

/-- `add_callback`. -/
def addCallback (m : PollMgr) (fd : Nat) (flag : PollFlag) (ch : Callback) : Option PollMgr :=
  if fd < maxPollFds ∧ (m.callbacks fd = none ∨ m.callbacks fd = some ch) then
    some { m with
      aio := m.aio.watchFd fd flag
      callbacks := Function.update m.callbacks fd (some ch) }
  else none

/-- `del_callback`. -/
def delCallback (m : PollMgr) (fd : Nat) (flag : PollFlag) : PollMgr :=
  let (aio, gone) := m.aio.unwatchFd fd flag
  { m with
    aio
    callbacks := if gone then Function.update m.callbacks fd none else m.callbacks }

/-- `block_remove_fd` up to the wait. -/
def blockRemoveFd (m : PollMgr) (fd : Nat) : PollMgr :=
  { m with
    aio := (m.aio.unwatchFd fd .rdwr).1
    pendingChange := true
    removers := m.removers ++ [⟨fd, .waiting false⟩] }

/-- `block_remove_fd` after the wait. -/
def finishRemove (m : PollMgr) (i : Nat) (fd : Nat) : PollMgr :=
  { m with
    callbacks := Function.update m.callbacks fd none
    removers := m.removers.set i ⟨fd, .returned⟩ }

/-- The section at the top of `wait_loop`. -/
def announce (m : PollMgr) : PollMgr :=
  if m.pendingChange then
    { m with pendingChange := false, removers := m.removers.map Remover.wakeUp, pc := .copy }
  else { m with pc := .copy }

/-- The scan after `select`: of the descriptors up to `high`, those that are ready, without the pipe's
read end where it is readable. -/
def collect (pipe high : Nat) (r w : List Nat) : PollPc :=
  let fds := List.range (high + 1)
  .scan (fds.filter fun fd => r.contains fd && fd != pipe)
    (fds.filter fun fd => w.contains fd && !(fd == pipe && r.contains fd))

/-- `if (callbacks_[fd])`. -/
def test (m : PollMgr) (k : CbKind) (fd : Nat) (rs ws : List Nat) : PollMgr :=
  { m with pc := if (m.callbacks fd).isSome then .tested k fd rs ws else .scan rs ws }

/-- One step of `wait_loop`. -/
def poll (m : PollMgr) : PollAction → Option PollMgr
  | .top =>
      match m.pc with
      | .top => some m.announce
      | _ => none
  | .copy =>
      match m.pc with
      | .copy => some { m with pc := .select m.aio.rfds m.aio.wfds m.aio.highfds }
      | _ => none
  | .ready r w =>
      match m.pc with
      | .select trfds twfds high =>
          if r.all trfds ∧ w.all twfds then some { m with pc := collect m.aio.pipe high r w } else none
      | _ => none
  | .test =>
      match m.pc with
      | .scan (fd :: rs) ws => some (m.test .read fd rs ws)
      | .scan [] (fd :: ws) => some (m.test .write fd [] ws)
      | .scan [] [] => some { m with pc := .top }
      | _ => none
  | .call =>
      match m.pc with
      -- the pointer is read a second time, and may be null by now
      | .tested k fd rs ws => (m.callbacks fd).map fun cb => { m with pc := .running k fd cb rs ws }
      | _ => none
  | .finish =>
      match m.pc with
      | .running _ _ _ rs ws => some { m with pc := .scan rs ws }
      | _ => none

/-- The poll thread runs `fd`'s callback or may come to it, in this round or the next. -/
def due (m : PollMgr) (k : CbKind) (fd : Nat) : Bool := m.aio.watches k fd || m.pc.may k fd

/-! ## What the functions do to what is due -/

variable {m m' : PollMgr} {a : PollAction} {k : CbKind} {fd fd' : Nat} {flag : PollFlag}

theorem watches_watchFd_of_ne (s : SelectAio) (hne : fd' ≠ fd) :
    (s.watchFd fd flag).watches k fd' = s.watches k fd' := by
  cases k <;> simp [SelectAio.watches, SelectAio.watchFd, CbKind.pick, ite_update_apply, hne]

theorem watches_unwatchFd (s : SelectAio) :
    (s.unwatchFd fd flag).1.watches k fd' = (s.clear fd flag).watches k fd' := by
  obtain ⟨hr, hw, -⟩ := Watched.select_unwatchFd s fd flag
  cases k <;> simp [SelectAio.watches, CbKind.pick, hr, hw]

/-- Nothing is watched that was not. -/
theorem watches_of_unwatchFd {s : SelectAio} (h : (s.unwatchFd fd flag).1.watches k fd' = true) :
    s.watches k fd' = true := by
  rw [watches_unwatchFd] at h
  cases k with
  | read =>
      simp only [SelectAio.watches, SelectAio.clear, CbKind.pick, ite_update_apply] at h ⊢
      split at h
      · cases h
      · exact h
  | write =>
      simp only [SelectAio.watches, SelectAio.clear, CbKind.pick, ite_update_apply] at h ⊢
      split at h
      · cases h
      · exact h

theorem watches_unwatchFd_rdwr (s : SelectAio) : (s.unwatchFd fd .rdwr).1.watches k fd = false := by
  rw [watches_unwatchFd]
  cases k <;>
    simp [SelectAio.watches, SelectAio.clear, CbKind.pick, PollFlag.reads, PollFlag.writes]

theorem addCallback_eq_some {ch : Callback} (h : m.addCallback fd flag ch = some m') :
    (m.callbacks fd = none ∨ m.callbacks fd = some ch) ∧
    m' = { m with
      aio := m.aio.watchFd fd flag
      callbacks := Function.update m.callbacks fd (some ch) } := by
  unfold addCallback at h
  split at h
  · cases h
    exact ⟨‹_ ∧ _›.2, rfl⟩
  · cases h

theorem may_collect {pipe high : Nat} {r w : List Nat} {trfds twfds : Nat → Bool} (hr : r.all trfds)
    (hw : w.all twfds) (h : (collect pipe high r w).may k fd = true) :
    k.pick trfds twfds fd = true := by
  cases k with
  | read =>
      simp only [collect, PollPc.may, CbKind.pick, List.contains_iff_mem, List.mem_filter,
        Bool.and_eq_true] at h
      exact List.all_eq_true.mp hr fd h.2.1
  | write =>
      simp only [collect, PollPc.may, CbKind.pick, List.contains_iff_mem, List.mem_filter,
        Bool.and_eq_true] at h
      exact List.all_eq_true.mp hw fd h.2.1

/-- What the thread has found out when it comes to `pc`: `select` has the sets as they are, and a
callback that is about to be called or runs is there. -/
def Found (m : PollMgr) : PollPc → Prop
  | .select r w high => r = m.aio.rfds ∧ w = m.aio.wfds ∧ high = m.aio.highfds
  | .tested _ fd _ _ | .running _ fd _ _ _ => (m.callbacks fd).isSome
  | _ => True

/-- The thread goes on, and does not come to a callback that it would not have come to. -/
structure Goes (m : PollMgr) (pc : PollPc) : Prop where
  may : ∀ {k fd}, pc.may k fd = true → m.due k fd = true
  found : m.Found pc

theorem Goes.callback {pc : PollPc} (h : m.Goes pc) (hruns : pc.runs k fd = true) :
    (m.callbacks fd).isSome := by
  cases pc with
  | running k' fd' cb rs ws =>
      obtain ⟨-, rfl⟩ := of_decide_eq_true hruns
      exact h.found
  | _ => cases hruns

theorem goes_test {rs ws : List Nat} (hfd : m.pc.may k fd = true)
    (hrest : ∀ k' fd', (k'.pick rs ws).contains fd' = true → m.pc.may k' fd' = true) :
    m.Goes (if (m.callbacks fd).isSome then .tested k fd rs ws else .scan rs ws) := by
  split
  · refine ⟨fun {k' fd'} hk => ?_, ‹_›⟩
    rcases Bool.or_eq_true_iff.mp hk with hself | hlist
    · obtain ⟨rfl, rfl⟩ := of_decide_eq_true hself
      simp [due, hfd]
    · simp [due, hrest k' fd' hlist]
  · refine ⟨fun {k' fd'} hk => ?_, trivial⟩
    simp [due, hrest k' fd' hk]

/-- What a step of `wait_loop` can do. -/
theorem poll_cases (h : m.poll a = some m') :
    (m.pc = .top ∧ m' = m.announce) ∨ ∃ pc, m' = { m with pc } ∧ m.Goes pc := by
  cases a with
  | top =>
      simp only [poll] at h
      split at h
      · cases h
        exact .inl ⟨‹_›, rfl⟩
      · cases h
  | copy =>
      simp only [poll] at h
      split at h
      · cases h
        refine .inr ⟨_, rfl, fun {k fd} hk => ?_, ⟨rfl, rfl, rfl⟩⟩
        exact Bool.or_eq_true_iff.mpr (.inl hk)
      · cases h
  | ready r w =>
      simp only [poll] at h
      split at h
      · rename_i hpc
        split at h
        · rename_i hall
          cases h
          refine .inr ⟨_, rfl, fun {k fd} hk => ?_, trivial⟩
          have hsel := may_collect hall.1 hall.2 hk
          simp [due, hpc, PollPc.may, hsel]
        · cases h
      · cases h
  | test =>
      simp only [poll] at h
      split at h
      · rename_i fd rs ws hpc
        cases h
        refine .inr ⟨_, rfl, goes_test ?_ fun k fd' hk => ?_⟩
        · simp [hpc, PollPc.may, CbKind.pick]
        · rw [hpc]
          cases k with
          | read =>
              exact List.contains_iff_mem.mpr (List.mem_cons_of_mem _ (List.contains_iff_mem.mp hk))
          | write => exact hk
      · rename_i fd ws hpc
        cases h
        refine .inr ⟨_, rfl, goes_test ?_ fun k fd' hk => ?_⟩
        · simp [hpc, PollPc.may, CbKind.pick]
        · rw [hpc]
          cases k with
          | read => exact hk
          | write =>
              exact List.contains_iff_mem.mpr (List.mem_cons_of_mem _ (List.contains_iff_mem.mp hk))
      · cases h
        refine .inr ⟨_, rfl, fun hk => ?_, trivial⟩
        cases hk
      · cases h
  | call =>
      simp only [poll] at h
      split at h
      · rename_i k fd rs ws hpc
        obtain ⟨cb, hcb, rfl⟩ := Option.map_eq_some_iff.mp h
        refine .inr ⟨_, rfl, fun {k' fd'} hk => ?_, by simp [Found, hcb]⟩
        have hk : m.pc.may k' fd' = true := by
          rw [hpc]
          exact hk
        simp [due, hk]
      · cases h
  | finish =>
      simp only [poll] at h
      split at h
      · rename_i k fd cb rs ws hpc
        cases h
        refine .inr ⟨_, rfl, fun {k' fd'} hk => ?_, trivial⟩
        have hk : m.pc.may k' fd' = true := by
          rw [hpc, PollPc.may]
          exact Bool.or_eq_true_iff.mpr (.inr hk)
        simp [due, hk]
      · cases h

theorem announce_eq (m : PollMgr) : ∃ pending removers,
    m.announce = { m with pendingChange := pending, removers, pc := .copy } := by
  unfold announce
  split
  · exact ⟨_, _, rfl⟩
  · exact ⟨_, _, rfl⟩

end PollMgr

/-! ## Removed descriptors -/

/-- What the surroundings do: whether a wait may return without a broadcast, and whether a descriptor
may be added while its removal waits. -/
structure Surroundings where
  spurious : Bool
  readd : Bool
  deriving DecidableEq, Repr

structure PollState where
  mgr : PollMgr
  /-- `block_remove_fd` has returned for these descriptors, and they were not added since. -/
  removed : Nat → Bool

/-- What the threads do. -/
inductive MgrAction where
  | add (fd : Nat) (flag : PollFlag) (ch : Callback)
  | del (fd : Nat) (flag : PollFlag)
  | blockRemove (fd : Nat)
  /-- The wait of the `i`-th call of `block_remove_fd` returns. -/
  | wake (i : Nat)
  | poll (a : PollAction)

/-- A removal of `fd` waits. -/
def PollMgr.removing (m : PollMgr) (fd : Nat) : Bool :=
  m.removers.any fun x => x.fd = fd ∧ x.pc ≠ .returned

namespace PollState

def new (pipe : Nat) : PollState := { mgr := .new pipe, removed := fun _ => false }

def next (e : Surroundings) (s : PollState) : MgrAction → Option (PollState × List Unit)
  | .add fd flag ch =>
      if s.mgr.removing fd ∧ ¬ e.readd then none
      else do
        let mgr ← s.mgr.addCallback fd flag ch
        return ({ mgr, removed := Function.update s.removed fd false }, [])
  | .del fd flag => some ({ s with mgr := s.mgr.delCallback fd flag }, [])
  | .blockRemove fd => some ({ s with mgr := s.mgr.blockRemoveFd fd }, [])
  | .wake i => do
      let x ← s.mgr.removers[i]?
      let .waiting woken := x.pc | none
      if woken ∨ e.spurious then
        return ({ mgr := s.mgr.finishRemove i x.fd
                  removed := Function.update s.removed x.fd true }, [])
      else none
  | .poll a => do
      let mgr ← s.mgr.poll a
      return ({ s with mgr }, [])

end PollState

/-- The poll manager with the threads that use it. -/
def pollSystem (e : Surroundings) : System PollState MgrAction Unit where
  init s := ∃ pipe, s = .new pipe
  next := PollState.next e

namespace PollState

variable {e : Surroundings} {s s' : PollState} {a : MgrAction} {es : List Unit}

/-- The poll thread neither runs a callback of `fd` nor may come to one. -/
def Quiet (m : PollMgr) (fd : Nat) : Prop := ∀ k, m.due k fd = false

/-- Removed descriptors are quiet, and so are those whose removal was announced. Until then they are
at least not watched. -/
structure Ok (s : PollState) : Prop where
  removed : ∀ {fd}, s.removed fd = true → Quiet s.mgr fd
  woken : ∀ {fd}, ⟨fd, .waiting true⟩ ∈ s.mgr.removers → Quiet s.mgr fd
  waiting : ∀ {fd}, ⟨fd, .waiting false⟩ ∈ s.mgr.removers → ∀ k, s.mgr.aio.watches k fd = false

/-- A step keeps `Ok` if it makes nothing due. -/
theorem Ok.of_due {m : PollMgr} (h : Ok s) (hdue : ∀ {k fd}, m.due k fd = true → s.mgr.due k fd = true)
    (hwatch : ∀ {k fd}, m.aio.watches k fd = true → s.mgr.aio.watches k fd = true)
    (hrem : ∀ {x}, x ∈ m.removers → x.pc = .returned ∨ x ∈ s.mgr.removers) :
    Ok { s with mgr := m } := by
  have hquiet : ∀ {fd}, Quiet s.mgr fd → Quiet m fd := by
    intro fd hq k
    rw [← Bool.not_eq_true]
    intro hd
    exact absurd (hdue hd) (by simp [hq k])
  refine ⟨fun hr => hquiet (h.removed hr), fun hw => ?_, fun hw k => ?_⟩
  · rcases hrem hw with hx | hx
    · cases hx
    · exact hquiet (h.woken hx)
  · rcases hrem hw with hx | hx
    · cases hx
    · rw [← Bool.not_eq_true]
      intro hd
      exact absurd (hwatch hd) (by simp [h.waiting hx k])

/-- At the top of the loop only what is watched is due, so an announcement makes the removed
descriptors quiet. -/
theorem Ok.announce (h : Ok s) (hpc : s.mgr.pc = .top) : Ok { s with mgr := s.mgr.announce } := by
  have haio : s.mgr.announce.aio = s.mgr.aio := by
    obtain ⟨pending, removers, heq⟩ := PollMgr.announce_eq s.mgr
    rw [heq]
  have hdue : ∀ k fd, s.mgr.announce.due k fd = s.mgr.due k fd := by
    intro k fd
    obtain ⟨pending, removers, heq⟩ := PollMgr.announce_eq s.mgr
    rw [heq, PollMgr.due, PollMgr.due, hpc]
    rfl
  have hquiet : ∀ {fd}, (∀ k, s.mgr.aio.watches k fd = false) → Quiet s.mgr.announce fd := by
    intro fd hw k
    rw [hdue, PollMgr.due, hpc, hw k]
    rfl
  have hrem : s.mgr.announce.removers = s.mgr.removers ∨
      s.mgr.announce.removers = s.mgr.removers.map Remover.wakeUp := by
    unfold PollMgr.announce
    split
    · exact .inr rfl
    · exact .inl rfl
  refine ⟨fun hr k => ?_, fun {fd} hw => ?_, fun {fd} hw => ?_⟩
  · rw [hdue]
    exact h.removed hr k
  · rcases hrem with heq | heq
    · intro k
      rw [hdue]
      exact h.woken (heq ▸ hw) k
    · -- it may have been woken before, or by this broadcast
      rw [heq] at hw
      obtain ⟨⟨fd', pc⟩, hx, hxw⟩ := List.mem_map.mp hw
      cases pc with
      | returned => cases hxw
      | waiting woken =>
          cases hxw
          cases woken with
          | true =>
              intro k
              rw [hdue]
              exact h.woken hx k
          | false => exact hquiet (h.waiting hx)
  · rcases hrem with heq | heq
    · intro k
      rw [haio]
      exact h.waiting (heq ▸ hw) k
    · rw [heq] at hw
      obtain ⟨⟨fd', pc⟩, hx, hxw⟩ := List.mem_map.mp hw
      cases pc <;> cases hxw

theorem Ok.poll (h : Ok s) {a : PollAction} {m : PollMgr} (hp : s.mgr.poll a = some m) :
    Ok { s with mgr := m } := by
  obtain ⟨hpc, rfl⟩ | ⟨pc, rfl, hgoes⟩ := PollMgr.poll_cases hp
  · exact h.announce hpc
  · refine h.of_due (fun {k fd} hd => ?_) id .inr
    rcases Bool.or_eq_true_iff.mp hd with hw | hm
    · exact Bool.or_eq_true_iff.mpr (.inl hw)
    · exact hgoes.may hm

/-- Less is watched. -/
theorem Ok.unwatch (h : Ok s) {m : PollMgr} {fd : Nat} {flag : PollFlag}
    (haio : m.aio = (s.mgr.aio.unwatchFd fd flag).1) (hpc : m.pc = s.mgr.pc)
    (hrem : ∀ {x}, x ∈ m.removers → x.pc = .returned ∨ x ∈ s.mgr.removers) :
    Ok { s with mgr := m } := by
  have hwatch : ∀ {k fd'}, m.aio.watches k fd' = true → s.mgr.aio.watches k fd' = true := by
    intro k fd' hw
    rw [haio] at hw
    exact PollMgr.watches_of_unwatchFd hw
  refine h.of_due (fun {k fd'} hd => ?_) hwatch hrem
  rw [PollMgr.due, hpc] at hd
  rcases Bool.or_eq_true_iff.mp hd with hw | hm
  · exact Bool.or_eq_true_iff.mpr (.inl (hwatch hw))
  · exact Bool.or_eq_true_iff.mpr (.inr hm)

theorem Ok.blockRemove (h : Ok s) (fd : Nat) : Ok { s with mgr := s.mgr.blockRemoveFd fd } := by
  -- all but the new call, which has not been woken
  have hall : Ok { s with mgr := { s.mgr.blockRemoveFd fd with removers := s.mgr.removers } } :=
    h.unwatch rfl rfl .inr
  refine ⟨hall.removed, fun hw => ?_, fun hw => ?_⟩
  · rcases List.mem_append.mp hw with hw | hw
    · exact hall.woken hw
    · simp at hw
  · rcases List.mem_append.mp hw with hw | hw
    · exact hall.waiting hw
    · cases List.mem_singleton.mp hw
      exact fun k => PollMgr.watches_unwatchFd_rdwr _

theorem Ok.add (h : Ok s) {fd : Nat} {flag : PollFlag} {ch : Callback} {m : PollMgr}
    (hrem : s.mgr.removing fd = false) (hm : s.mgr.addCallback fd flag ch = some m) :
    Ok { mgr := m, removed := Function.update s.removed fd false } := by
  obtain ⟨-, rfl⟩ := PollMgr.addCallback_eq_some hm
  have hne : ∀ {fd' woken}, ⟨fd', .waiting woken⟩ ∈ s.mgr.removers → fd' ≠ fd := by
    rintro fd' woken hx rfl
    have hany := List.any_eq_false.mp hrem _ hx
    simp at hany
  have hquiet : ∀ {fd'}, fd' ≠ fd → Quiet s.mgr fd' → Quiet
      { s.mgr with
        aio := s.mgr.aio.watchFd fd flag
        callbacks := Function.update s.mgr.callbacks fd (some ch) } fd' := by
    intro fd' hne hq k
    have := hq k
    rw [PollMgr.due] at this ⊢
    rw [PollMgr.watches_watchFd_of_ne _ hne]
    exact this
  refine ⟨fun {fd'} hr => ?_, fun hw => hquiet (hne hw) (h.woken hw), fun hw k => ?_⟩
  · by_cases hfd : fd' = fd
    · subst hfd
      simp at hr
    · exact hquiet hfd (h.removed (by simpa [hfd] using hr))
  · have := h.waiting hw k
    show (s.mgr.aio.watchFd fd flag).watches k _ = false
    rwa [PollMgr.watches_watchFd_of_ne _ (hne hw)]

theorem Ok.wake (h : Ok s) {i fd : Nat} (hx : s.mgr.removers[i]? = some ⟨fd, .waiting true⟩) :
    Ok { mgr := s.mgr.finishRemove i fd, removed := Function.update s.removed fd true } := by
  have hmem := List.mem_of_getElem? hx
  have hrem : ∀ {x}, x ∈ (s.mgr.finishRemove i fd).removers →
      x.pc = .returned ∨ x ∈ s.mgr.removers := by
    intro x hx
    rcases List.mem_or_eq_of_mem_set hx with hx | rfl
    · exact .inr hx
    · exact .inl rfl
  have hall : Ok { s with mgr := s.mgr.finishRemove i fd } := h.of_due id id hrem
  refine ⟨fun {fd'} hr => ?_, hall.woken, hall.waiting⟩
  by_cases hfd : fd' = fd
  · subst hfd
    exact h.woken hmem
  · exact hall.removed (by simpa [hfd] using hr)

/-- Where no wait returns by itself and no descriptor is added while it is being removed. -/
theorem Ok.next (h : Ok s) (hs : e.spurious = false) (hr : e.readd = false)
    (hn : s.next e a = some (s', es)) : Ok s' := by
  cases a with
  | add fd flag ch =>
      simp only [PollState.next] at hn
      split at hn
      · cases hn
      · rename_i hrem
        obtain ⟨m, hm, heq⟩ := Option.bind_eq_some_iff.mp hn
        cases heq
        exact h.add (by simpa [hr] using hrem) hm
  | del fd flag =>
      cases hn
      exact h.unwatch rfl rfl .inr
  | blockRemove fd =>
      cases hn
      exact h.blockRemove fd
  | wake i =>
      obtain ⟨⟨fd, pc⟩, hx, hn⟩ := Option.bind_eq_some_iff.mp hn
      cases pc with
      | returned => cases hn
      | waiting woken =>
          cases woken with
          | false => simp [hs] at hn
          | true =>
              cases hn
              exact h.wake hx
  | poll a =>
      obtain ⟨m, hm, heq⟩ := Option.bind_eq_some_iff.mp hn
      cases heq
      exact h.poll hm

theorem ok_of_reachable (hs : e.spurious = false) (hr : e.readd = false)
    (h : (pollSystem e).Reachable s) : Ok s := by
  refine h.invariant ?_ fun s a s' es hok hn => hok.next hs hr hn
  rintro s ⟨pipe, rfl⟩
  refine ⟨fun hr => ?_, fun hw => ?_, fun hw => ?_⟩
  · cases hr
  · cases hw
  · cases hw

/-- `block_remove_fd` returns on a spurious wakeup while the callback runs. -/
theorem spurious_runs (readd : Bool) :
    ∃ s, (pollSystem ⟨true, readd⟩).Reachable s ∧ s.removed 5 = true ∧
      s.mgr.pc.runs .read 5 = true := by
  cases readd <;>
    exact System.exists_reachable
      [.add 5 .rdonly 0, .poll .top, .poll .copy, .poll (.ready [5] []), .poll .test, .poll .call,
        .blockRemove 5, .wake 0] ⟨3, rfl⟩ (by decide)

/-- The descriptor is added again after the announcement, and its callback runs when
`block_remove_fd` returns. -/
theorem readded_runs (spurious : Bool) :
    ∃ s, (pollSystem ⟨spurious, true⟩).Reachable s ∧ s.removed 5 = true ∧
      s.mgr.pc.runs .read 5 = true := by
  cases spurious <;>
    exact System.exists_reachable
      [.add 5 .rdonly 0, .blockRemove 5, .poll .top, .add 5 .rdonly 0, .poll .copy,
        .poll (.ready [5] []), .poll .test, .poll .call, .wake 0] ⟨3, rfl⟩ (by decide)

end PollState

/-- No callback of a removed descriptor runs, at any time in any run, exactly if no wait returns without
a broadcast and no descriptor is added while its removal waits. -/
theorem removed_quiet_iff (e : Surroundings) :
    (∀ s, (pollSystem e).Reachable s → ∀ fd k, s.removed fd = true → s.mgr.pc.runs k fd = false) ↔
      e.spurious = false ∧ e.readd = false := by
  constructor
  · intro h
    obtain ⟨spurious, readd⟩ := e
    constructor
    · cases spurious with
      | false => rfl
      | true =>
          obtain ⟨s, hs, hrem, hruns⟩ := PollState.spurious_runs readd
          rw [h s hs 5 .read hrem] at hruns
          cases hruns
    · cases readd with
      | false => rfl
      | true =>
          obtain ⟨s, hs, hrem, hruns⟩ := PollState.readded_runs spurious
          rw [h s hs 5 .read hrem] at hruns
          cases hruns
  · rintro ⟨hs, hr⟩ s hreach fd k hrem
    have hq := (PollState.ok_of_reachable hs hr hreach).removed hrem k
    rw [← Bool.not_eq_true]
    intro hruns
    rw [PollMgr.due, PollPc.may_of_runs hruns, Bool.or_true] at hq
    cases hq

/-- The poll thread is in `read_cb` of descriptor 5 when `block_remove_fd(5)` unwatches it and waits, a
spurious wakeup ends the wait, and `block_remove_fd` returns. -/
theorem removed_runs_spurious :
    ∃ s, (pollSystem ⟨true, false⟩).Reachable s ∧ s.removed 5 = true ∧ s.mgr.pc.runs .read 5 = true :=
  PollState.spurious_runs false

end Yfs.Net
