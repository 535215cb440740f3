import Mathlib.Order.Bounds.Basic
import Yfs.Net.PollMgr

/-!
# What `select` looks at

`wait_ready` passes `highfds_ + 1` to `select` and then scans the descriptors up to `highfds_`, so a
descriptor above it would never be found ready. `watch_fd` raises `highfds_`; `unwatch_fd` looks for a
new value only if the descriptor was the greatest one and has left both sets.

The flags are any values of their type here: `watch_fd` takes what it does not know for both
directions, and `unwatch_fd` stops the process. After any calls for descriptors other than the pipe's,
`highfds_` is the greatest descriptor in a set, and nothing is missed (`highfds_greatest`).
-/

namespace Yfs.Net

open Yfs.Lib

/-! ## Calls with any flag -/

/-- What `watch_fd` takes the value of a flag for. -/
def PollFlag.ofWatch (flag : UInt32) : PollFlag :=
  if flag = PollFlag.rdonly.bits then .rdonly
  else if flag = PollFlag.wronly.bits then .wronly
  else .rdwr

/-- What `unwatch_fd` takes it for. `none` is the `VERIFY(0)`. -/
def PollFlag.ofUnwatch (flag : UInt32) : Option PollFlag :=
  if flag = PollFlag.rdonly.bits then some .rdonly
  else if flag = PollFlag.wronly.bits then some .wronly
  else if flag = PollFlag.rdwr.bits then some .rdwr
  else none

/-- A call that changes the sets. -/
inductive FdCall where
  | watchFd (fd : Nat) (flag : UInt32)
  | unwatchFd (fd : Nat) (flag : UInt32)
  deriving DecidableEq, Repr

def FdCall.fd : FdCall → Nat
  | watchFd fd _ | unwatchFd fd _ => fd

/-- What `select` leaves in a set: the descriptors below `nfds` that are in it and ready. -/
def selected (nfds : Nat) (fds ready : Nat → Bool) (fd : Nat) : Bool :=
  fd < nfds && fds fd && ready fd

namespace SelectAio

def fdCall (s : SelectAio) : FdCall → Option SelectAio
  | .watchFd fd flag => some (s.watchFd fd (.ofWatch flag))
  | .unwatchFd fd flag => (PollFlag.ofUnwatch flag).map fun flag => (s.unwatchFd fd flag).1

/-- One round of the loop in `wait_ready`. -/
def scanFd (s : SelectAio) (trfds twfds : Nat → Bool) (out : List Nat × List Nat) (fd : Nat) :
    List Nat × List Nat :=
  -- a byte is read from the pipe, and that is all
  if fd = s.pipe ∧ trfds fd = true then out
  else (if trfds fd then out.1 ++ [fd] else out.1, if twfds fd then out.2 ++ [fd] else out.2)

/-- `wait_ready`, where `select` returns and `r` and `w` are ready: what is put into `readable` and
`writable`. -/
def waitReady (s : SelectAio) (r w : Nat → Bool) : List Nat × List Nat :=
  let trfds := selected (s.highfds + 1) s.rfds r
  let twfds := selected (s.highfds + 1) s.wfds w
  (List.range (s.highfds + 1)).foldl (s.scanFd trfds twfds) ([], [])

end SelectAio

/-- A `SelectAio` under calls for descriptors other than the read end of its pipe. -/
def selectSystem (pipe : Nat) : System SelectAio FdCall Unit where
  init s := s = .new pipe
  next s c := if c.fd = pipe then none else (s.fdCall c).map (·, [])

namespace SelectAio

variable {s : SelectAio} {pipe fd : Nat} {flag : PollFlag}

/-! ## The greatest descriptor -/

/-- `highfds` is in a set and nothing in a set is above it. The pipe's read end is watched for reading
only. -/
structure Exact (pipe : Nat) (s : SelectAio) : Prop where
  pipe_eq : s.pipe = pipe
  rfds : s.rfds pipe = true
  wfds : s.wfds pipe = false
  high : s.isSet s.highfds = true
  bounded : s.Bounded

/-- The loop of `unwatch_fd` ends at something that is set if it begins there. -/
theorem foldl_range_of_init {p : Nat → Bool} {x : Nat} (n : Nat) (hx : p x = true) :
    p ((List.range n).foldl (fun newh i => if p i then i else newh) x) = true := by
  induction n with
  | zero => exact hx
  | succ n ih =>
      rw [List.range_succ, List.foldl_append, List.foldl_cons, List.foldl_nil]
      by_cases hn : p n = true
      · rw [if_pos hn]
        exact hn
      · rw [if_neg hn]
        exact ih

theorem isSet_watchFd_self (s : SelectAio) (fd : Nat) (flag : PollFlag) :
    (s.watchFd fd flag).isSet fd = true := by
  cases flag <;> simp [isSet, SelectAio.watchFd, PollFlag.reads, PollFlag.writes]

theorem isSet_watchFd_of_isSet {x : Nat} (h : s.isSet x = true) :
    (s.watchFd fd flag).isSet x = true := by
  by_cases hx : x = fd
  · rw [hx]
    exact isSet_watchFd_self s fd flag
  · simpa [isSet, SelectAio.watchFd, ite_update_apply, hx] using h

theorem isSet_clear_of_ne {x : Nat} (hx : x ≠ fd) : (s.clear fd flag).isSet x = s.isSet x := by
  simp [isSet, clear, ite_update_apply, hx]

theorem Exact.watchFd (h : s.Exact pipe) (hfd : fd ≠ pipe) (flag : PollFlag) :
    (s.watchFd fd flag).Exact pipe where
  pipe_eq := h.pipe_eq
  rfds := by simpa [SelectAio.watchFd, ite_update_apply, hfd.symm] using h.rfds
  wfds := by simpa [SelectAio.watchFd, ite_update_apply, hfd.symm] using h.wfds
  high := by
    show (s.watchFd fd flag).isSet (if s.highfds ≤ fd then fd else s.highfds) = true
    split
    · exact isSet_watchFd_self s fd flag
    · exact isSet_watchFd_of_isSet h.high
  bounded := h.bounded.watchFd fd flag

/-- What is left of `highfds` when `fd` was cleared: it is in a set still, or `fd` was the greatest and
has left both sets. -/
theorem Exact.isSet_clear (h : s.Exact pipe)
    (hkeep : ¬ ((!(s.clear fd flag).isSet fd && decide (fd = s.highfds)) = true)) :
    (s.clear fd flag).isSet s.highfds = true := by
  by_cases hhigh : fd = s.highfds
  · simpa [hhigh] using hkeep
  · rw [isSet_clear_of_ne (Ne.symm hhigh)]
    exact h.high

theorem Exact.unwatchFd (h : s.Exact pipe) (hfd : fd ≠ pipe) (flag : PollFlag) :
    (s.unwatchFd fd flag).1.Exact pipe := by
  obtain ⟨hr, hw, -⟩ := Watched.select_unwatchFd s fd flag
  have hrfds : (s.clear fd flag).rfds pipe = true := by
    simpa [clear, ite_update_apply, hfd.symm] using h.rfds
  have hwfds : (s.clear fd flag).wfds pipe = false := by
    simp [clear, ite_update_apply, hfd.symm, h.wfds]
  refine ⟨?_, by rw [hr]; exact hrfds, by rw [hw]; exact hwfds, ?_, h.bounded.unwatchFd fd flag⟩
  · unfold SelectAio.unwatchFd
    dsimp only
    split <;> exact h.pipe_eq
  · unfold SelectAio.unwatchFd
    dsimp only
    split
    · -- the loop begins with the pipe, which is set
      apply foldl_range_of_init
      show (s.clear fd flag).isSet s.pipe = true
      rw [h.pipe_eq, isSet, hrfds, Bool.true_or]
    · rename_i hkeep
      exact h.isSet_clear hkeep

theorem Exact.fdCall (h : s.Exact pipe) {c : FdCall} (hc : c.fd ≠ pipe) {s' : SelectAio}
    (hs : s.fdCall c = some s') : s'.Exact pipe := by
  cases c with
  | watchFd fd flag =>
      cases hs
      exact h.watchFd hc _
  | unwatchFd fd flag =>
      obtain ⟨f, -, rfl⟩ := Option.map_eq_some_iff.mp hs
      exact h.unwatchFd hc f

theorem fdCall_of_next {c : FdCall} {s' : SelectAio} {es : List Unit}
    (h : (selectSystem pipe).next s c = some (s', es)) : c.fd ≠ pipe ∧ s.fdCall c = some s' := by
  by_cases hc : c.fd = pipe
  · simp [selectSystem, hc] at h
  · simp only [selectSystem, if_neg hc] at h
    obtain ⟨t, ht, heq⟩ := Option.map_eq_some_iff.mp h
    cases heq
    exact ⟨hc, ht⟩

/-- Only `unwatch_fd` of a descriptor takes it out of the sets. -/
theorem isSet_fdCall {c : FdCall} {s' : SelectAio} (h : s.isSet fd = true)
    (hc : ∀ f, c ≠ .unwatchFd fd f) (hs : s.fdCall c = some s') : s'.isSet fd = true := by
  cases c with
  | watchFd x flag =>
      cases hs
      exact isSet_watchFd_of_isSet h
  | unwatchFd x flag =>
      have hx : fd ≠ x := fun hx => hc flag (by rw [hx])
      obtain ⟨f, -, rfl⟩ := Option.map_eq_some_iff.mp hs
      obtain ⟨hr, hw, -⟩ := Watched.select_unwatchFd s x f
      rw [isSet, hr, hw]
      exact (isSet_clear_of_ne hx).trans h

theorem isSet_exec {cs : List FdCall} {s' : SelectAio} {es : List Unit} (h : s.isSet fd = true)
    (hcs : ∀ c ∈ cs, ∀ f, c ≠ .unwatchFd fd f)
    (he : (selectSystem pipe).exec s cs = some (s', es)) : s'.isSet fd = true := by
  induction cs generalizing s es with
  | nil =>
      cases he
      exact h
  | cons c cs ih =>
      obtain ⟨s₁, es₁, es₂, hn, hexec, -⟩ := System.exec_cons.mp he
      exact ih (isSet_fdCall h (hcs c List.mem_cons_self) (fdCall_of_next hn).2)
        (fun c hc => hcs c (List.mem_cons_of_mem _ hc)) hexec

theorem isSet_of_exec_watchFd {flag : UInt32} {cs : List FdCall} {s' : SelectAio} {es : List Unit}
    (hcs : ∀ c ∈ cs, ∀ f, c ≠ .unwatchFd fd f)
    (he : (selectSystem pipe).exec s (.watchFd fd flag :: cs) = some (s', es)) :
    s'.isSet fd = true := by
  obtain ⟨s₁, es₁, es₂, hn, hexec, -⟩ := System.exec_cons.mp he
  cases (fdCall_of_next hn).2
  exact isSet_exec (isSet_watchFd_self s fd _) hcs hexec

theorem exact_of_reachable (h : (selectSystem pipe).Reachable s) : s.Exact pipe := by
  refine h.invariant ?_ ?_
  · rintro s rfl
    refine ⟨rfl, by simp [new], rfl, by simp [new, isSet], fun fd hfd => ?_⟩
    have heq : fd = pipe := by simpa [new, isSet] using hfd
    exact Nat.le_of_eq heq
  · intro s c s' es hok hn
    obtain ⟨hc, hs⟩ := fdCall_of_next hn
    exact hok.fdCall hc hs

/-! ## The scan -/

theorem foldl_scanFd (trfds twfds : Nat → Bool) (n : Nat) :
    (List.range n).foldl (s.scanFd trfds twfds) ([], []) =
      ((List.range n).filter fun fd => trfds fd && fd != s.pipe,
       (List.range n).filter fun fd => twfds fd && !(fd == s.pipe && trfds fd)) := by
  induction n with
  | zero => rfl
  | succ n ih =>
      rw [List.range_succ, List.foldl_append, ih, List.foldl_cons, List.foldl_nil, List.filter_append,
        List.filter_append, scanFd]
      by_cases hpipe : n = s.pipe
      · cases hr : trfds n <;> cases hw : twfds n <;> simp [← hpipe, hr, hw]
      · cases hr : trfds n <;> cases hw : twfds n <;> simp [hpipe, hr, hw]

/-- `wait_ready` puts the descriptors that are watched and ready where they belong, but for the pipe. -/
theorem mem_waitReady (h : s.Exact pipe) (r w : Nat → Bool) (fd : Nat) :
    (fd ∈ (s.waitReady r w).1 ↔ fd ≠ pipe ∧ s.rfds fd = true ∧ r fd = true) ∧
    (fd ∈ (s.waitReady r w).2 ↔ s.wfds fd = true ∧ w fd = true) := by
  have hle : s.isSet fd = true → fd < s.highfds + 1 := fun hset => Nat.lt_succ_of_le (h.bounded fd hset)
  rw [waitReady, foldl_scanFd]
  simp only [List.mem_filter, List.mem_range, selected, Bool.and_eq_true, decide_eq_true_eq, bne_iff_ne,
    h.pipe_eq]
  constructor
  · constructor
    · rintro ⟨-, ⟨⟨-, hset⟩, hr⟩, hne⟩
      exact ⟨hne, hset, hr⟩
    · rintro ⟨hne, hset, hr⟩
      have := hle (by simp [isSet, hset])
      exact ⟨this, ⟨⟨this, hset⟩, hr⟩, hne⟩
  · constructor
    · rintro ⟨-, ⟨⟨-, hset⟩, hw⟩, -⟩
      exact ⟨hset, hw⟩
    · rintro ⟨hset, hw⟩
      have hlt := hle (by simp [isSet, hset])
      have hne : fd ≠ pipe := by
        rintro rfl
        rw [h.wfds] at hset
        cases hset
      exact ⟨hlt, ⟨⟨hlt, hset⟩, hw⟩, by simp [hne]⟩

/-- The scan of the poll thread is that of `wait_ready`. -/
theorem collect_eq_waitReady {r w : List Nat} (hr : r.all s.rfds) (hw : w.all s.wfds) :
    PollMgr.collect s.pipe s.highfds r w =
      .scan (s.waitReady r.contains w.contains).1 (s.waitReady r.contains w.contains).2 := by
  have hsel : ∀ {l : List Nat} {fds : Nat → Bool} (_ : l.all fds) {fd : Nat},
      fd ∈ List.range (s.highfds + 1) → selected (s.highfds + 1) fds l.contains fd = l.contains fd := by
    intro l fds hl fd hfd
    rw [selected, decide_eq_true (List.mem_range.mp hfd), Bool.true_and]
    cases hc : l.contains fd with
    | false => rw [Bool.and_false]
    | true => rw [List.all_eq_true.mp hl fd (List.contains_iff_mem.mp hc), Bool.true_and]
  rw [waitReady, foldl_scanFd, PollMgr.collect]
  congr 1
  · apply List.filter_congr
    intro fd hfd
    rw [hsel hr hfd]
  · apply List.filter_congr
    intro fd hfd
    rw [hsel hr hfd, hsel hw hfd]

end SelectAio

/-- After any calls for other descriptors, the pipe's read end is watched, `highfds_` is the greatest
descriptor in a set, `select` looks at every one of them, and `wait_ready` finds every one that is
ready, the pipe apart. A descriptor is in a set from `watch_fd` on, until `unwatch_fd` is called
for it. -/
theorem highfds_greatest (pipe : Nat) (s : SelectAio) (h : (selectSystem pipe).Reachable s) :
    s.rfds pipe = true ∧
    IsGreatest {fd | s.rfds fd = true ∨ s.wfds fd = true} s.highfds ∧
    (∀ fd, s.rfds fd = true ∨ s.wfds fd = true → fd < s.highfds + 1) ∧
    (∀ r w fd,
      (fd ∈ (s.waitReady r w).1 ↔ fd ≠ pipe ∧ s.rfds fd = true ∧ r fd = true) ∧
      (fd ∈ (s.waitReady r w).2 ↔ s.wfds fd = true ∧ w fd = true)) ∧
    ∀ fd flag cs s' es, (∀ c ∈ cs, ∀ f, c ≠ .unwatchFd fd f) →
      (selectSystem pipe).exec s (.watchFd fd flag :: cs) = some (s', es) →
      s'.rfds fd = true ∨ s'.wfds fd = true := by
  have hok := SelectAio.exact_of_reachable h
  have hset : ∀ (s : SelectAio) fd, s.isSet fd = true ↔ s.rfds fd = true ∨ s.wfds fd = true := by
    simp [SelectAio.isSet]
  refine ⟨hok.rfds, ⟨(hset s _).mp hok.high, fun fd hfd => ?_⟩, fun fd hfd => ?_,
    SelectAio.mem_waitReady hok, ?_⟩
  · exact hok.bounded fd ((hset s fd).mpr hfd)
  · exact Nat.lt_succ_of_le (hok.bounded fd ((hset s fd).mpr hfd))
  · intro fd flag cs s' es hcs he
    exact (hset s' fd).mp (SelectAio.isSet_of_exec_watchFd hcs he)

/-- The greatest descriptor leaves one set and then the other, a descriptor that was never watched is
removed, and the next one is found. -/
theorem highfds_greatest_next :
    ∃ s, (selectSystem 3).Reachable s ∧ s.highfds = 5 ∧ s.rfds 7 = false ∧ s.wfds 7 = false ∧
      IsGreatest {fd | s.rfds fd = true ∨ s.wfds fd = true} s.highfds ∧
      5 ∈ (s.waitReady (fun _ => true) fun _ => false).1 := by
  obtain ⟨s, hs, hhigh, hr, hw, hset⟩ := System.exists_reachable (S := selectSystem 3)
    (p := fun s => s.highfds = 5 ∧ s.rfds 7 = false ∧ s.wfds 7 = false ∧ s.rfds 5 = true)
    [.watchFd 7 0x11, .watchFd 5 0, .unwatchFd 7 0x1, .unwatchFd 9 0x10, .unwatchFd 7 0x10]
    rfl (by decide)
  obtain ⟨-, hgreatest, -, hready, -⟩ := highfds_greatest 3 s hs
  exact ⟨s, hs, hhigh, hr, hw, hgreatest, (hready _ _ 5).1.mpr ⟨by decide, hset, rfl⟩⟩

end Yfs.Net
