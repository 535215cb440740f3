import Mathlib.Algebra.Ring.Nat
import Mathlib.Logic.Function.Basic
import Yfs.Lib.Lockstep

/-!
# Watching descriptors

`SelectAio` keeps two sets of descriptors and the greatest descriptor in them, `EPollAio` a status word
for each descriptor and what it has registered with the kernel. `none` says that a `VERIFY` fails.

`Watched` keeps track of what was asked for, and says where the two agree (`aio_answers_iff`). They do
not where `is_watched` asks for something that is watched, because `EPollAio` masks the status with the
bits that are not flags, and not where `unwatch_fd` is called for a descriptor that nothing is watched
of, which `EPollAio` takes to the kernel (`aio_is_watched_differ`). The read end
of `SelectAio`'s pipe, which is watched from the start, makes a further difference.
-/

namespace Yfs.Net

open Yfs.Lib

/-- `MAX_POLL_FDS`. -/
def maxPollFds : Nat := 128

instance : NeZero maxPollFds := ⟨by decide⟩

/-- The flags that are passed. -/
inductive PollFlag where
  | rdonly
  | wronly
  | rdwr
  deriving DecidableEq, Repr

namespace PollFlag

def reads : PollFlag → Bool
  | rdonly | rdwr => true
  | wronly => false

def writes : PollFlag → Bool
  | wronly | rdwr => true
  | rdonly => false

/-- The value of the flag. -/
def bits : PollFlag → UInt32
  | rdonly => 0x1
  | wronly => 0x10
  | rdwr => 0x11

/-- `CB_MASK`. -/
def mask : UInt32 := ~~~ 0x11

end PollFlag

/-! ## `SelectAio` -/

/-- A set with `fd` put into it or taken out of it, or as it was. -/
theorem ite_update_apply (c : Bool) (f : Nat → Bool) (fd : Nat) (b : Bool) (x : Nat) :
    (if c then Function.update f fd b else f) x = if c = true ∧ x = fd then b else f x := by
  cases c with
  | false => simp
  | true => simp [Function.update_apply]

structure SelectAio where
  rfds : Nat → Bool
  wfds : Nat → Bool
  highfds : Nat
  /-- `pipefd_[0]`. -/
  pipe : Nat

namespace SelectAio

/-- A new `SelectAio` whose pipe has the read end `pipe`. -/
def new (pipe : Nat) : SelectAio where
  rfds := fun fd => fd = pipe
  wfds := fun _ => false
  highfds := pipe
  pipe := pipe

/-- `watch_fd`. -/
def watchFd (s : SelectAio) (fd : Nat) (flag : PollFlag) : SelectAio where
  rfds := if flag.reads then Function.update s.rfds fd true else s.rfds
  wfds := if flag.writes then Function.update s.wfds fd true else s.wfds
  highfds := if s.highfds ≤ fd then fd else s.highfds
  pipe := s.pipe

/-- `is_watched`. -/
def isWatched (s : SelectAio) (fd : Nat) : PollFlag → Bool
  | .rdonly => s.rfds fd
  | .wronly => s.wfds fd
  | .rdwr => s.rfds fd && s.wfds fd

/-- The descriptor is in one of the sets. -/
def isSet (s : SelectAio) (fd : Nat) : Bool := s.rfds fd || s.wfds fd

/-- The loop that looks for a new greatest descriptor. -/
def newHigh (s : SelectAio) : Nat :=
  (List.range (s.highfds + 1)).foldl (fun newh i => if s.isSet i then i else newh) s.pipe

/-- The first part of `unwatch_fd`. -/
def clear (s : SelectAio) (fd : Nat) (flag : PollFlag) : SelectAio :=
  { s with
    rfds := if flag.reads then Function.update s.rfds fd false else s.rfds
    wfds := if flag.writes then Function.update s.wfds fd false else s.wfds }

/-- `unwatch_fd`. -/
def unwatchFd (s : SelectAio) (fd : Nat) (flag : PollFlag) : SelectAio × Bool :=
  let s := s.clear fd flag
  let s := if !s.isSet fd && fd = s.highfds then { s with highfds := s.newHigh } else s
  (s, !s.isSet fd)

/-! ### The greatest descriptor -/

/-- No descriptor above `highfds` is in a set. -/
def Bounded (s : SelectAio) : Prop := ∀ fd, s.isSet fd = true → fd ≤ s.highfds

theorem le_foldl_range {p : Nat → Bool} {i n : Nat} (x : Nat) (hi : i < n) (hp : p i = true) :
    i ≤ (List.range n).foldl (fun newh i => if p i then i else newh) x := by
  induction n with
  | zero => exact absurd hi (Nat.not_lt_zero i)
  | succ n ih =>
      rw [List.range_succ, List.foldl_append, List.foldl_cons, List.foldl_nil]
      by_cases hn : p n = true
      · rw [if_pos hn]
        exact Nat.le_of_lt_succ hi
      · rw [if_neg hn]
        have hne : i ≠ n := by
          rintro rfl
          exact hn hp
        exact ih (by omega)

theorem Bounded.watchFd {s : SelectAio} (h : s.Bounded) (fd : Nat) (flag : PollFlag) :
    (s.watchFd fd flag).Bounded := by
  intro i hi
  show i ≤ if s.highfds ≤ fd then fd else s.highfds
  have hcases : i = fd ∨ s.isSet i = true := by
    by_cases hne : i = fd
    · exact .inl hne
    · refine .inr ?_
      simpa [isSet, SelectAio.watchFd, ite_update_apply, hne] using hi
  rcases hcases with rfl | hset
  · split <;> omega
  · have := h i hset
    split <;> omega

/-- Clearing bits leaves a bound a bound. -/
theorem isSet_of_clear {s : SelectAio} {fd i : Nat} {flag : PollFlag}
    (h : (s.clear fd flag).isSet i = true) : s.isSet i = true := by
  simp only [isSet, clear, ite_update_apply, Bool.or_eq_true] at h ⊢
  rcases h with h | h
  · split at h
    · cases h
    · exact .inl h
  · split at h
    · cases h
    · exact .inr h

theorem Bounded.unwatchFd {s : SelectAio} (h : s.Bounded) (fd : Nat) (flag : PollFlag) :
    (s.unwatchFd fd flag).1.Bounded := by
  have hclear : (s.clear fd flag).Bounded := fun i hi => h i (isSet_of_clear hi)
  unfold SelectAio.unwatchFd
  dsimp only
  split
  · intro i hi
    exact le_foldl_range _ (Nat.lt_succ_of_le (hclear i hi)) hi
  · exact hclear

end SelectAio

/-! ## `EPollAio` -/

inductive EpollOp where
  | add
  | mod
  | del
  deriving DecidableEq, Repr

structure EPollAio where
  fdstatus : Nat → UInt32
  /-- The descriptors that are registered with the kernel. -/
  registered : Nat → Bool

namespace EPollAio

def new : EPollAio where
  fdstatus := fun _ => 0
  registered := fun _ => false

/-- `VERIFY(epoll_ctl(pollfd_, op, fd, &ev) == 0)`: a registered descriptor can be changed and deleted,
any other one added. -/
def epollCtl (s : EPollAio) (op : EpollOp) (fd : Nat) : Option EPollAio :=
  match op, s.registered fd with
  | .add, false => some { s with registered := Function.update s.registered fd true }
  | .mod, true => some s
  | .del, true => some { s with registered := Function.update s.registered fd false }
  | _, _ => none

/-- `ev.events`, but for `EPOLLET`: whether `EPOLLIN` and `EPOLLOUT` are set. -/
def events (status : UInt32) : Bool × Bool :=
  (status &&& PollFlag.rdonly.bits != 0, status &&& PollFlag.wronly.bits != 0)

/-- `watch_fd`. -/
def watchFd (s : EPollAio) (fd : Nat) (flag : PollFlag) : Option EPollAio := do
  let op := if s.fdstatus fd ≠ 0 then .mod else .add
  let status := s.fdstatus fd ||| flag.bits
  -- the two VERIFY before `epoll_ctl`
  if maxPollFds ≤ fd ∨ flag = .rdwr ∧ events status ≠ (true, true) then none
  else epollCtl { s with fdstatus := Function.update s.fdstatus fd status } op fd

/-- `unwatch_fd`. -/
def unwatchFd (s : EPollAio) (fd : Nat) (flag : PollFlag) : Option (EPollAio × Bool) :=
  let status := s.fdstatus fd &&& ~~~ flag.bits
  let op := if status ≠ 0 then .mod else .del
  if maxPollFds ≤ fd ∨ flag = .rdwr ∧ op ≠ .del then none
  else (epollCtl { s with fdstatus := Function.update s.fdstatus fd status } op fd).map
    (·, op = .del)

/-- `is_watched`. -/
def isWatched (s : EPollAio) (fd : Nat) (flag : PollFlag) : Option Bool :=
  if maxPollFds ≤ fd then none else some (s.fdstatus fd &&& PollFlag.mask == flag.bits)

end EPollAio

/-! ## Sequences of calls -/

/-- A call of an `aio_mgr`. -/
inductive AioCall where
  | watchFd (fd : Fin maxPollFds) (flag : PollFlag)
  | unwatchFd (fd : Fin maxPollFds) (flag : PollFlag)
  | isWatched (fd : Fin maxPollFds) (flag : PollFlag)

/-- One call of a `SelectAio`; `watch_fd` returns nothing. -/
def SelectAio.call (s : SelectAio) : AioCall → Option (SelectAio × Option Bool)
  | .watchFd fd flag => some (s.watchFd fd flag, none)
  | .unwatchFd fd flag => some ((s.unwatchFd fd flag).1, some (s.unwatchFd fd flag).2)
  | .isWatched fd flag => some (s, some (s.isWatched fd flag))

/-- One call of an `EPollAio`. -/
def EPollAio.call (s : EPollAio) : AioCall → Option (EPollAio × Option Bool)
  | .watchFd fd flag => (s.watchFd fd flag).map (·, none)
  | .unwatchFd fd flag => (s.unwatchFd fd flag).map fun r => (r.1, some r.2)
  | .isWatched fd flag => (s.isWatched fd flag).map fun b => (s, some b)

/-- What is asked to be watched. -/
structure Watched where
  r : Nat → Bool
  w : Nat → Bool
  /-- The read end of the pipe is watched on its own account. -/
  own : Bool

namespace Watched

def new : Watched where
  r := fun _ => false
  w := fun _ => false
  own := true

def step (pipe : Nat) (w : Watched) : AioCall → Watched
  | .watchFd fd flag =>
      { w with
        r := if flag.reads then Function.update w.r fd true else w.r
        w := if flag.writes then Function.update w.w fd true else w.w }
  | .unwatchFd fd flag =>
      { r := if flag.reads then Function.update w.r fd false else w.r
        w := if flag.writes then Function.update w.w fd false else w.w
        own := w.own && !(flag.reads && fd.1 = pipe) }
  | .isWatched _ _ => w

/-- The descriptor is the pipe's and watched on its own account. -/
def ownPipe (pipe : Nat) (w : Watched) (fd : Nat) : Bool := w.own && fd = pipe

/-- Everything that the flag names is watched, if only for the pipe's sake. -/
def covers (pipe : Nat) (w : Watched) (fd : Nat) (flag : PollFlag) : Bool :=
  (!flag.reads || w.r fd || w.ownPipe pipe fd) && (!flag.writes || w.w fd)

/-- The calls that the two answer in the same way. -/
def Agrees (pipe : Nat) (w : Watched) : AioCall → Prop
  | .watchFd _ _ => True
  -- something was asked to be watched, and the pipe's own registration is not all that is left
  | .unwatchFd fd flag => (w.r fd || w.w fd) = true ∧
      ¬ (w.ownPipe pipe fd = true ∧ flag = .wronly ∧ w.r fd = false)
  | .isWatched fd flag => w.covers pipe fd flag = false

/-- The status word of a descriptor. -/
def status (r w : Bool) : UInt32 :=
  (if r then PollFlag.rdonly.bits else 0) ||| (if w then PollFlag.wronly.bits else 0)

/-- What the two keep when `w` is asked to be watched. -/
structure Rel (pipe : Nat) (w : Watched) (s : SelectAio) (t : EPollAio) : Prop where
  rfds : ∀ fd, s.rfds fd = (w.r fd || w.ownPipe pipe fd)
  wfds : ∀ fd, s.wfds fd = w.w fd
  fdstatus : ∀ fd, t.fdstatus fd = status (w.r fd) (w.w fd)
  registered : ∀ fd, t.registered fd = (w.r fd || w.w fd)

variable {pipe : Nat} {w : Watched} {s : SelectAio} {t : EPollAio}

/-! ### Status words -/

theorem status_ne_zero (r w : Bool) : status r w ≠ 0 ↔ (r || w) = true := by
  cases r <;> cases w <;> decide

theorem status_or (r w : Bool) (flag : PollFlag) :
    status r w ||| flag.bits = status (r || flag.reads) (w || flag.writes) := by
  cases r <;> cases w <;> cases flag <;> decide

theorem status_and_not (r w : Bool) (flag : PollFlag) :
    status r w &&& ~~~ flag.bits = status (r && !flag.reads) (w && !flag.writes) := by
  cases r <;> cases w <;> cases flag <;> decide

/-- No flag is ever left under the mask. -/
theorem status_and_mask (r w : Bool) (flag : PollFlag) :
    (status r w &&& PollFlag.mask == flag.bits) = false := by
  cases r <;> cases w <;> cases flag <;> decide

theorem events_status (r w : Bool) : EPollAio.events (status r w) = (r, w) := by
  cases r <;> cases w <;> decide

/-! ### One call -/

/-- The kernel has a descriptor exactly if its status is not zero. -/
theorem Rel.registered_iff (h : Rel pipe w s t) (fd : Nat) :
    t.registered fd = true ↔ t.fdstatus fd ≠ 0 := by
  rw [h.registered, h.fdstatus, status_ne_zero]

theorem Rel.epoll_watchFd (h : Rel pipe w s t) (fd : Fin maxPollFds) (flag : PollFlag) :
    t.watchFd fd flag = some
      { fdstatus := Function.update t.fdstatus fd (t.fdstatus fd ||| flag.bits)
        registered := Function.update t.registered fd true } := by
  have hver : ¬ (maxPollFds ≤ fd.1 ∨
      flag = .rdwr ∧ EPollAio.events (t.fdstatus fd ||| flag.bits) ≠ (true, true)) := by
    rw [h.fdstatus, status_or, events_status]
    rintro (hle | ⟨rfl, hne⟩)
    · exact absurd fd.2 (Nat.not_lt.mpr hle)
    · simp [PollFlag.reads, PollFlag.writes] at hne
  unfold EPollAio.watchFd
  by_cases hreg : t.registered fd = true
  · have hst := (h.registered_iff fd).mp hreg
    have hsame : Function.update t.registered fd true = t.registered := by
      rw [← hreg, Function.update_eq_self]
    simp only [hst, hver, EPollAio.epollCtl, hreg, hsame, if_true, if_false, ne_eq, not_false_eq_true]
  · have hst : ¬ t.fdstatus fd ≠ 0 := mt (h.registered_iff fd).mpr hreg
    rw [Bool.not_eq_true] at hreg
    simp only [hst, hver, EPollAio.epollCtl, hreg, if_false]

theorem Rel.watchFd (h : Rel pipe w s t) (fd : Fin maxPollFds) (flag : PollFlag) :
    Rel pipe (w.step pipe (.watchFd fd flag)) (s.watchFd fd flag)
      { fdstatus := Function.update t.fdstatus fd (t.fdstatus fd ||| flag.bits)
        registered := Function.update t.registered fd true } where
  rfds x := by
    simp only [SelectAio.watchFd, step, ite_update_apply, h.rfds, ownPipe]
    split <;> simp
  wfds x := by
    simp only [SelectAio.watchFd, step, ite_update_apply, h.wfds]
  fdstatus x := by
    simp only [step, ite_update_apply, Function.update_apply]
    by_cases hx : x = fd
    · subst hx
      rw [if_pos rfl, h.fdstatus, status_or]
      congr 1 <;> cases flag <;> simp [PollFlag.reads, PollFlag.writes]
    · simp [hx, h.fdstatus]
  registered x := by
    simp only [step, ite_update_apply, Function.update_apply]
    by_cases hx : x = fd
    · subst hx
      cases flag <;> simp [PollFlag.reads, PollFlag.writes]
    · simp [hx, h.registered]

/-- What is left of a descriptor's registrations. -/
theorem step_unwatchFd_self (pipe : Nat) (w : Watched) (fd : Fin maxPollFds) (flag : PollFlag) :
    (w.step pipe (.unwatchFd fd flag)).r fd = (w.r fd && !flag.reads) ∧
    (w.step pipe (.unwatchFd fd flag)).w fd = (w.w fd && !flag.writes) := by
  simp only [step, ite_update_apply]
  cases flag <;> simp [PollFlag.reads, PollFlag.writes]

theorem step_unwatchFd_of_ne (pipe : Nat) (w : Watched) {fd : Fin maxPollFds} {x : Nat} (hx : x ≠ fd)
    (flag : PollFlag) :
    (w.step pipe (.unwatchFd fd flag)).r x = w.r x ∧
    (w.step pipe (.unwatchFd fd flag)).w x = w.w x := by
  simp [step, ite_update_apply, hx]

/-- A descriptor that nothing is watched of is not known to the kernel. -/
theorem Rel.epoll_unwatchFd_none (h : Rel pipe w s t) {fd : Fin maxPollFds}
    (hfd : (w.r fd || w.w fd) = false) (flag : PollFlag) : t.unwatchFd fd flag = none := by
  have hreg : t.registered fd = false := (h.registered fd).trans hfd
  have hst : t.fdstatus fd = 0 := by
    by_contra hne
    exact absurd ((h.registered_iff fd).mpr hne) (by simp [hreg])
  simp [EPollAio.unwatchFd, hst, EPollAio.epollCtl, hreg]

theorem Rel.epoll_unwatchFd (h : Rel pipe w s t) {fd : Fin maxPollFds}
    (hfd : (w.r fd || w.w fd) = true) (flag : PollFlag) :
    let w' := w.step pipe (.unwatchFd fd flag)
    t.unwatchFd fd flag = some
      ({ fdstatus := Function.update t.fdstatus fd (status (w'.r fd) (w'.w fd))
         registered := Function.update t.registered fd (w'.r fd || w'.w fd) },
       !(w'.r fd || w'.w fd)) := by
  intro w'
  have hreg : t.registered fd = true := (h.registered fd).trans hfd
  have hst : t.fdstatus fd &&& ~~~ flag.bits = status (w'.r fd) (w'.w fd) := by
    rw [h.fdstatus, status_and_not, (step_unwatchFd_self pipe w fd flag).1,
      (step_unwatchFd_self pipe w fd flag).2]
  have hver : ¬ maxPollFds ≤ fd.1 := Nat.not_le.mpr fd.2
  unfold EPollAio.unwatchFd
  rw [hst]
  cases hleft : w'.r fd || w'.w fd with
  | true =>
      have hne := (status_ne_zero _ _).mpr hleft
      have hflag : flag ≠ .rdwr := by
        rintro rfl
        have hself := step_unwatchFd_self pipe w fd .rdwr
        simp [w', hself.1, hself.2, PollFlag.reads, PollFlag.writes] at hleft
      have hsame : Function.update t.registered fd true = t.registered := by
        rw [← hreg, Function.update_eq_self]
      simp [hne, hflag, hver, EPollAio.epollCtl, hreg, hsame]
  | false =>
      have heq : status (w'.r fd) (w'.w fd) = 0 := by
        by_contra hne
        exact absurd ((status_ne_zero _ _).mp hne) (by simp [hleft])
      simp [heq, hver, EPollAio.epollCtl, hreg]

theorem select_unwatchFd (s : SelectAio) (fd : Nat) (flag : PollFlag) :
    (s.unwatchFd fd flag).1.rfds = (s.clear fd flag).rfds ∧
    (s.unwatchFd fd flag).1.wfds = (s.clear fd flag).wfds ∧
    (s.unwatchFd fd flag).2 = !(s.clear fd flag).isSet fd := by
  unfold SelectAio.unwatchFd
  dsimp only
  split
  · exact ⟨rfl, rfl, rfl⟩
  · exact ⟨rfl, rfl, rfl⟩

theorem Rel.clear_rfds (h : Rel pipe w s t) (fd : Fin maxPollFds) (flag : PollFlag) (x : Nat) :
    (s.clear fd flag).rfds x = ((w.step pipe (.unwatchFd fd flag)).r x ||
      (w.step pipe (.unwatchFd fd flag)).ownPipe pipe x) := by
  simp only [SelectAio.clear, step, ite_update_apply, h.rfds, ownPipe]
  by_cases hx : x = fd
  · subst hx
    cases flag.reads <;> simp
  · simp only [hx, and_false, if_false]
    grind

theorem Rel.clear_wfds (h : Rel pipe w s t) (fd : Fin maxPollFds) (flag : PollFlag) (x : Nat) :
    (s.clear fd flag).wfds x = (w.step pipe (.unwatchFd fd flag)).w x := by
  simp only [SelectAio.clear, step, ite_update_apply, h.wfds]

theorem Rel.unwatchFd (h : Rel pipe w s t) (fd : Fin maxPollFds) (flag : PollFlag) :
    let w' := w.step pipe (.unwatchFd fd flag)
    Rel pipe w' (s.unwatchFd fd flag).1
      { fdstatus := Function.update t.fdstatus fd (status (w'.r fd) (w'.w fd))
        registered := Function.update t.registered fd (w'.r fd || w'.w fd) } where
  rfds x := by
    rw [(select_unwatchFd s fd flag).1, h.clear_rfds]
  wfds x := by
    rw [(select_unwatchFd s fd flag).2.1, h.clear_wfds]
  fdstatus x := by
    by_cases hx : x = fd
    · subst hx
      exact Function.update_self _ _ _
    · have hne := step_unwatchFd_of_ne pipe w hx flag
      show Function.update t.fdstatus fd _ x = _
      rw [Function.update_of_ne hx, h.fdstatus, hne.1, hne.2]
  registered x := by
    by_cases hx : x = fd
    · subst hx
      exact Function.update_self _ _ _
    · have hne := step_unwatchFd_of_ne pipe w hx flag
      show Function.update t.registered fd _ x = _
      rw [Function.update_of_ne hx, h.registered, hne.1, hne.2]

theorem Rel.isWatched (h : Rel pipe w s t) (fd : Nat) (flag : PollFlag) :
    s.isWatched fd flag = w.covers pipe fd flag := by
  cases flag <;>
    simp [SelectAio.isWatched, covers, PollFlag.reads, PollFlag.writes, h.rfds, h.wfds]

/-- Only the pipe's own registration makes a difference to what `unwatch_fd` returns. -/
theorem Rel.unwatchFd_answer (h : Rel pipe w s t) (fd : Fin maxPollFds) (flag : PollFlag) :
    (s.unwatchFd fd flag).2 = (!((w.step pipe (.unwatchFd fd flag)).r fd ||
      (w.step pipe (.unwatchFd fd flag)).w fd)) ↔
      ¬ (w.ownPipe pipe fd = true ∧ flag = .wronly ∧ w.r fd = false) := by
  have hown : (w.step pipe (.unwatchFd fd flag)).ownPipe pipe fd =
      (w.ownPipe pipe fd && !flag.reads) := by
    simp only [step, ownPipe]
    grind
  have hself := step_unwatchFd_self pipe w fd flag
  rw [(select_unwatchFd s fd flag).2.2, SelectAio.isSet, h.clear_rfds, h.clear_wfds, hown, hself.1,
    hself.2]
  cases flag <;> cases w.r fd <;> cases w.ownPipe pipe fd <;> simp [PollFlag.reads, PollFlag.writes]

theorem lockstep (pipe : Nat) :
    Lockstep SelectAio.call EPollAio.call (step pipe) (Agrees pipe) (Rel pipe) where
  agree := by
    intro w s t a h ha
    cases a with
    | watchFd fd flag =>
        refine ⟨_, _, none, rfl, ?_, h.watchFd fd flag⟩
        rw [EPollAio.call, h.epoll_watchFd]
        rfl
    | unwatchFd fd flag =>
        refine ⟨_, _, some (s.unwatchFd fd flag).2, rfl, ?_, h.unwatchFd fd flag⟩
        rw [EPollAio.call, h.epoll_unwatchFd ha.1, (h.unwatchFd_answer fd flag).mpr ha.2]
        rfl
    | isWatched fd flag =>
        refine ⟨s, t, some false, ?_, ?_, h⟩
        · rw [SelectAio.call, h.isWatched, show w.covers pipe fd flag = false from ha]
        · rw [EPollAio.call, EPollAio.isWatched, if_neg (Nat.not_le.mpr fd.2), h.fdstatus,
            status_and_mask]
          rfl
  differ := by
    intro w s t a h ha
    cases a with
    | watchFd fd flag => exact absurd trivial ha
    | unwatchFd fd flag =>
        cases hfd : w.r fd || w.w fd with
        | false =>
            rw [EPollAio.call, h.epoll_unwatchFd_none hfd]
            exact Option.some_ne_none _
        | true =>
            rw [EPollAio.call, h.epoll_unwatchFd hfd]
            intro heq
            have hans := (h.unwatchFd_answer fd flag).mp (Option.some.inj (Option.some.inj heq))
            exact ha ⟨hfd, hans⟩
    | isWatched fd flag =>
        have hcov : w.covers pipe fd flag = true := by
          rw [← Bool.not_eq_false]
          exact ha
        rw [SelectAio.call, h.isWatched, hcov, EPollAio.call, EPollAio.isWatched,
          if_neg (Nat.not_le.mpr fd.2), h.fdstatus, status_and_mask]
        intro heq
        cases heq

theorem rel_new (pipe : Nat) : Rel pipe new (SelectAio.new pipe) EPollAio.new where
  rfds fd := by simp [SelectAio.new, new, ownPipe]
  wfds _ := rfl
  fdstatus _ := by
    show 0 = status false false
    decide
  registered _ := rfl

end Watched

/-- A sequence of calls gets the same answers from both exactly if each call agrees with what is asked
to be watched when it is made. -/
theorem aio_answers_iff (pipe : Nat) (cs : List AioCall) :
    answers SelectAio.call (SelectAio.new pipe) cs = answers EPollAio.call EPollAio.new cs ↔
      Along (Watched.step pipe) (Watched.Agrees pipe) Watched.new cs :=
  (Watched.lockstep pipe).answers_eq_iff (Watched.rel_new pipe) cs

/-- `is_watched` after `watch_fd`. -/
theorem aio_is_watched_differ :
    answers SelectAio.call (SelectAio.new 3) [.watchFd 5 .rdonly, .isWatched 5 .rdonly] =
      [some none, some (some true)] ∧
    answers EPollAio.call EPollAio.new [.watchFd 5 .rdonly, .isWatched 5 .rdonly] =
      [some none, some (some false)] := by
  decide

-- a second `unwatch_fd` stops one of them
example :
    answers SelectAio.call (SelectAio.new 3)
        [.watchFd 5 .rdonly, .unwatchFd 5 .rdwr, .unwatchFd 5 .rdwr] =
      [some none, some (some true), some (some true)] ∧
    answers EPollAio.call EPollAio.new [.watchFd 5 .rdonly, .unwatchFd 5 .rdwr, .unwatchFd 5 .rdwr] =
      [some none, some (some true), none] := by
  decide

end Yfs.Net
