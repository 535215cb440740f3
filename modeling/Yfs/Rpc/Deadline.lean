import Mathlib.Algebra.Ring.Int.Defs
import Yfs.Lib.System

/-!
# Deadlines

`addTimespec` adds a timeout in milliseconds to a reading of the clock, `cmpTimespec` compares two
deadlines, and `CallWait` is the loop in `call1` that waits for the reply: each round computes a
deadline from the clock and an interval, cuts it off at the final deadline, waits, and doubles the
interval. The request is sent before that, at the top of the loop; what is sent and when is in
`Yfs.Rpc.Backoff`. Sums that do not fit their type are undefined (`none`). A wait times out only if
POSIX accepts its deadline; otherwise `pthread_cond_timedwait` returns `EINVAL` and the inner loop
calls it again.

A deadline is always the exact sum. But the loop of `addTimespec` carries only while `tv_nsec` is
greater than 10⁹, so nanoseconds that add up to 10⁹ exactly stay as they are, and such a deadline is
not accepted (`deadlines_iff`, `addTimespec_boundary`).
-/

namespace Yfs.Rpc

open Yfs.Lib

/-- `struct timespec`. -/
structure Timespec where
  sec : Int
  nsec : Int
  deriving DecidableEq, Repr

/-- A `time_t`. -/
def InTime (x : Int) : Prop := -2 ^ 63 ≤ x ∧ x < 2 ^ 63

instance (x : Int) : Decidable (InTime x) := inferInstanceAs (Decidable (_ ∧ _))

namespace Timespec

/-- What a clock gives, and what POSIX accepts as a deadline. -/
structure Valid (t : Timespec) : Prop where
  sec : InTime t.sec
  nsec_nonneg : 0 ≤ t.nsec
  nsec_lt : t.nsec < 10 ^ 9

instance (t : Timespec) : Decidable t.Valid :=
  decidable_of_iff (InTime t.sec ∧ 0 ≤ t.nsec ∧ t.nsec < 10 ^ 9)
    ⟨fun h => ⟨h.1, h.2.1, h.2.2⟩, fun h => ⟨h.sec, h.nsec_nonneg, h.nsec_lt⟩⟩

/-- The time in nanoseconds. -/
def ns (t : Timespec) : Int := t.sec * 10 ^ 9 + t.nsec

end Timespec

/-- `cmp_timespec`. -/
def cmpTimespec (a b : Timespec) : Int :=
  if a.sec > b.sec then 1
  else if a.sec < b.sec then -1
  else if a.nsec > b.nsec then 1
  else if a.nsec < b.nsec then -1
  else 0

def toTime (x : Int) : Option Int := if InTime x then some x else none

/-- The loop of `add_timespec`, for at most `n` rounds. -/
def carry : Nat → Timespec → Option Timespec
  | 0, t => some t
  | n + 1, t =>
      if t.nsec > 1000000000 then do
        let sec ← toTime (t.sec + 1)
        carry n { sec, nsec := t.nsec - 1000000000 }
      else some t

/-- `add_timespec`. -/
def addTimespec (a : Timespec) (b : Int) : Option Timespec := do
  let sec ← toTime (a.sec + b.tdiv 1000)
  let nsec := a.nsec + b.tmod 1000 * 1000000
  -- `VERIFY(result->tv_nsec >= 0)`
  if nsec < 0 then none else carry (nsec / 1000000000).toNat { sec, nsec }

/-- The nanoseconds of `a` and of `b` milliseconds, before the carry. -/
def nsecSum (a : Timespec) (b : Int) : Int := a.nsec + b % 1000 * 1000000

/-! ## Sums -/

section
variable {a b : Timespec} {ms : Int}

theorem toTime_eq_some {x y : Int} : toTime x = some y ↔ InTime x ∧ y = x := by
  unfold toTime
  by_cases h : InTime x
  · simp [h, eq_comm]
  · simp [h]

/-- Less than two seconds' worth of nanoseconds takes at most one round. -/
theorem carry_cases {n : Nat} {t d : Timespec} (hn : 10 ^ 9 < t.nsec → 0 < n)
    (ht : t.nsec < 2 * 10 ^ 9) :
    carry n t = some d ↔
      (t.nsec ≤ 10 ^ 9 ∧ d = t) ∨
      (10 ^ 9 < t.nsec ∧ InTime (t.sec + 1) ∧ d = ⟨t.sec + 1, t.nsec - 10 ^ 9⟩) := by
  have hstop : ∀ n (t : Timespec), t.nsec ≤ 10 ^ 9 → carry n t = some t := by
    intro n t ht
    cases n with
    | zero => rfl
    | succ n => exact if_neg (by omega)
  by_cases hle : t.nsec ≤ 10 ^ 9
  · rw [hstop n t hle]
    grind
  · obtain ⟨n, rfl⟩ : ∃ m, n = m + 1 := ⟨n - 1, by have := hn (by omega); omega⟩
    rw [carry, if_pos (by omega)]
    by_cases hsec : InTime (t.sec + 1)
    · have hto : toTime (t.sec + 1) = some (t.sec + 1) := toTime_eq_some.mpr ⟨hsec, rfl⟩
      rw [hto]
      show carry n ⟨t.sec + 1, t.nsec - 1000000000⟩ = _ ↔ _
      rw [hstop n _ (by change t.nsec - 1000000000 ≤ _; omega)]
      grind
    · have hto : toTime (t.sec + 1) = none := if_neg hsec
      rw [hto]
      show none = some d ↔ _
      grind

/-- A sum of a valid time and a timeout. -/
theorem addTimespec_cases (ha : a.Valid) (hms : 0 ≤ ms) {d : Timespec} :
    addTimespec a ms = some d ↔ InTime (a.sec + ms / 1000) ∧
      ((nsecSum a ms ≤ 10 ^ 9 ∧ d = ⟨a.sec + ms / 1000, nsecSum a ms⟩) ∨
       (10 ^ 9 < nsecSum a ms ∧ InTime (a.sec + ms / 1000 + 1) ∧
        d = ⟨a.sec + ms / 1000 + 1, nsecSum a ms - 10 ^ 9⟩)) := by
  have hnn := ha.nsec_nonneg
  have hlt := ha.nsec_lt
  unfold addTimespec
  rw [Int.tdiv_eq_ediv_of_nonneg hms, Int.tmod_eq_emod_of_nonneg hms]
  by_cases hsec : InTime (a.sec + ms / 1000)
  · rw [toTime_eq_some.mpr ⟨hsec, rfl⟩]
    show (if nsecSum a ms < 0 then none
      else carry (nsecSum a ms / 1000000000).toNat ⟨a.sec + ms / 1000, nsecSum a ms⟩) = some d ↔ _
    have hsum : 0 ≤ nsecSum a ms ∧ nsecSum a ms < 2 * 10 ^ 9 := by
      unfold nsecSum
      omega
    rw [if_neg (by omega), carry_cases (by intro h; change _ < nsecSum a ms at h; omega) hsum.2]
    simp [hsec]
  · rw [show toTime (a.sec + ms / 1000) = none from if_neg hsec]
    simp [hsec]

/-- A sum that is defined is exact. -/
theorem ns_addTimespec (ha : a.Valid) (hms : 0 ≤ ms) {d : Timespec} (h : addTimespec a ms = some d) :
    d.ns = a.ns + ms * 10 ^ 6 := by
  obtain ⟨-, ⟨-, rfl⟩ | ⟨-, -, rfl⟩⟩ := (addTimespec_cases ha hms).mp h
  · simp only [Timespec.ns, nsecSum]
    omega
  · simp only [Timespec.ns, nsecSum]
    omega

/-- A sum that is defined is valid unless its nanoseconds add up to a second. -/
theorem valid_addTimespec_iff (ha : a.Valid) (hms : 0 ≤ ms) {d : Timespec}
    (h : addTimespec a ms = some d) : d.Valid ↔ nsecSum a ms ≠ 10 ^ 9 := by
  have hnn := ha.nsec_nonneg
  have hlt := ha.nsec_lt
  have hsum : 0 ≤ nsecSum a ms ∧ nsecSum a ms < 2 * 10 ^ 9 := by
    unfold nsecSum
    omega
  obtain ⟨hsec, ⟨hle, rfl⟩ | ⟨hgt, hsec', rfl⟩⟩ := (addTimespec_cases ha hms).mp h
  · constructor
    · intro hv
      exact Int.ne_of_lt hv.nsec_lt
    · intro hne
      exact ⟨hsec, hsum.1, by change nsecSum a ms < _; omega⟩
  · constructor
    · intro _
      omega
    · intro _
      exact ⟨hsec', by change 0 ≤ _ - _; omega, by change _ - _ < _; omega⟩

/-- Off the boundary a sum is defined exactly if its seconds fit. -/
theorem addTimespec_defined_iff (ha : a.Valid) (hms : 0 ≤ ms) (hne : nsecSum a ms ≠ 10 ^ 9) :
    (∃ d, addTimespec a ms = some d) ↔ (a.ns + ms * 10 ^ 6) / 10 ^ 9 < 2 ^ 63 := by
  have hnn := ha.nsec_nonneg
  have hlt := ha.nsec_lt
  have hsec := ha.sec.1
  have hq : (a.ns + ms * 10 ^ 6) / 10 ^ 9 =
      a.sec + ms / 1000 + (if 10 ^ 9 < nsecSum a ms then 1 else 0) := by
    unfold nsecSum at hne ⊢
    unfold Timespec.ns
    split_ifs <;> omega
  rw [hq]
  constructor
  · rintro ⟨d, hd⟩
    obtain ⟨hin, ⟨hle, -⟩ | ⟨hgt, hin', -⟩⟩ := (addTimespec_cases ha hms).mp hd
    · rw [if_neg (by omega), Int.add_zero]
      exact hin.2
    · rw [if_pos hgt]
      exact hin'.2
  · intro h
    by_cases hgt : 10 ^ 9 < nsecSum a ms
    · rw [if_pos hgt] at h
      exact ⟨_, (addTimespec_cases ha hms).mpr
        ⟨⟨by omega, by omega⟩, .inr ⟨hgt, ⟨by omega, by omega⟩, rfl⟩⟩⟩
    · rw [if_neg hgt] at h
      exact ⟨_, (addTimespec_cases ha hms).mpr
        ⟨⟨by omega, by omega⟩, .inl ⟨by omega, rfl⟩⟩⟩

/-- Valid deadlines are compared by time. -/
theorem cmpTimespec_eq (ha : a.Valid) (hb : b.Valid) :
    cmpTimespec a b = if a.ns > b.ns then 1 else if a.ns < b.ns then -1 else 0 := by
  have := ha.nsec_nonneg
  have := ha.nsec_lt
  have := hb.nsec_nonneg
  have := hb.nsec_lt
  unfold cmpTimespec Timespec.ns
  split_ifs <;> omega

end

/-! ## The loop of `call1` -/

inductive WaitPc where
  /-- Before `if(!finaldeadline.tv_sec)`. -/
  | top
  /-- In `pthread_cond_timedwait`. -/
  | waiting (nextdeadline : Timespec)
  /-- Out of the loop. -/
  | left
  deriving DecidableEq, Repr

/-- `call1` as far as it is about time. -/
structure CallWait where
  /-- The reading of the clock that `finaldeadline` was computed from. -/
  start : Timespec
  /-- Its seconds are set to 0 when the last wait begins. -/
  finaldeadline : Timespec
  currTo : Int
  done : Bool
  pc : WaitPc
  deriving DecidableEq, Repr

inductive WaitAction where
  /-- From the top of the loop to the wait; the clock gives `now`. -/
  | round (now : Timespec)
  /-- The wait returns 0. -/
  | wake
  /-- The wait returns `ETIMEDOUT`. -/
  | timeout
  /-- `got_pdu` or `cancel` sets `ca.done`. -/
  | reply

/-- A wait until `deadline`, which is `base` and `ms` milliseconds. -/
structure Wait where
  deadline : Timespec
  base : Timespec
  ms : Int
  deriving DecidableEq, Repr

/-- `to_min`. -/
def toMin : Int := 1000

namespace CallWait

/-- Before the loop, in a call with timeout `limit`. -/
def new (limit : Int) (now : Timespec) : Option CallWait := do
  let finaldeadline ← addTimespec now limit
  return { start := now, finaldeadline, currTo := toMin, done := false, pc := .top }

/-- Wait until `w.deadline`, unless the reply is there. -/
def await (s : CallWait) (w : Wait) : CallWait × List Wait :=
  if s.done then ({ s with pc := .left }, []) else ({ s with pc := .waiting w.deadline }, [w])

/-- One round up to the wait. -/
def round (limit : Int) (s : CallWait) (now : Timespec) : Option (CallWait × List Wait) :=
  if s.finaldeadline.sec = 0 then some ({ s with pc := .left }, [])
  else do
    let nextdeadline ← addTimespec now s.currTo
    if cmpTimespec nextdeadline s.finaldeadline > 0 then
      return { s with finaldeadline := { s.finaldeadline with sec := 0 } }.await
        { deadline := s.finaldeadline, base := s.start, ms := limit }
    else return s.await { deadline := nextdeadline, base := now, ms := s.currTo }

/-- `curr_to.to <<= 1` after a wait without reply. -/
def double (s : CallWait) : Option CallWait :=
  if s.currTo * 2 < 2 ^ 31 then some { s with currTo := s.currTo * 2, pc := .top } else none

def next (limit : Int) (s : CallWait) : WaitAction → Option (CallWait × List Wait)
  | .round now => if s.pc = .top ∧ now.Valid then s.round limit now else none
  | .wake => do
      let .waiting _ := s.pc | none
      return (if s.done then { s with pc := .left } else s, [])
  | .timeout => do
      let .waiting d := s.pc | none
      -- with a deadline that is not accepted the wait returns `EINVAL` at once, again and again
      if ¬ d.Valid then none
      else if s.done then return ({ s with pc := .left }, [])
      else (s.double).map (·, [])
  | .reply => some ({ s with done := true }, [])

end CallWait

/-- The waits of a call with timeout `limit`. -/
def waitSystem (limit : Int) : System CallWait WaitAction Wait where
  init s := ∃ now : Timespec, now.Valid ∧ CallWait.new limit now = some s
  next := CallWait.next limit

namespace CallWait

variable {limit : Int} {s s' : CallWait} {a : WaitAction} {es : List Wait}

/-- The deadline of `w` is a sum of a reading of the clock and a timeout. -/
structure IsSum (w : Wait) : Prop where
  base : w.base.Valid
  ms : 0 ≤ w.ms
  deadline : addTimespec w.base w.ms = some w.deadline

/-- The final deadline is the one computed at the start until it is used. -/
structure Ok (limit : Int) (s : CallWait) : Prop where
  start : s.start.Valid
  final : s.finaldeadline.sec ≠ 0 → addTimespec s.start limit = some s.finaldeadline
  currTo : 0 ≤ s.currTo

theorem await_of_done (hd : s.done = true) (w : Wait) : s.await w = ({ s with pc := .left }, []) :=
  if_pos hd

theorem await_of_not_done (hd : s.done = false) (w : Wait) :
    s.await w = ({ s with pc := .waiting w.deadline }, [w]) :=
  if_neg (by rw [hd]; exact Bool.false_ne_true)

theorem Ok.await (h : Ok limit s) (w : Wait) (hw : IsSum w) :
    Ok limit (s.await w).1 ∧ ∀ v ∈ (s.await w).2, IsSum v := by
  cases hd : s.done with
  | true =>
      rw [await_of_done hd]
      exact ⟨⟨h.start, h.final, h.currTo⟩, by simp⟩
  | false =>
      rw [await_of_not_done hd]
      exact ⟨⟨h.start, h.final, h.currTo⟩, by simpa using hw⟩

theorem Ok.round (hto : 0 ≤ limit) (h : Ok limit s) {now : Timespec} (hnow : now.Valid)
    {r : CallWait × List Wait} (hr : s.round limit now = some r) :
    Ok limit r.1 ∧ ∀ w ∈ r.2, IsSum w := by
  unfold CallWait.round at hr
  by_cases hsec : s.finaldeadline.sec = 0
  · rw [if_pos hsec] at hr
    cases hr
    exact ⟨⟨h.start, h.final, h.currTo⟩, by simp⟩
  · rw [if_neg hsec] at hr
    obtain ⟨d, hd, hr⟩ := Option.bind_eq_some_iff.mp hr
    by_cases hcmp : cmpTimespec d s.finaldeadline > 0
    · -- the last wait is until the final deadline
      rw [if_pos hcmp] at hr
      rw [← Option.some.inj hr]
      have hok : Ok limit { s with finaldeadline := { s.finaldeadline with sec := 0 } } :=
        ⟨h.start, fun hne => absurd rfl hne, h.currTo⟩
      apply hok.await
      exact ⟨h.start, hto, h.final hsec⟩
    · rw [if_neg hcmp] at hr
      rw [← Option.some.inj hr]
      apply h.await
      exact ⟨hnow, h.currTo, hd⟩

theorem Ok.next (hto : 0 ≤ limit) (h : Ok limit s) (hn : s.next limit a = some (s', es)) :
    Ok limit s' ∧ ∀ w ∈ es, IsSum w := by
  cases a with
  | round now =>
      rw [CallWait.next] at hn
      by_cases hg : s.pc = .top ∧ now.Valid
      · rw [if_pos hg] at hn
        exact h.round hto hg.2 hn
      · rw [if_neg hg] at hn
        cases hn
  | wake =>
      simp only [CallWait.next] at hn
      split at hn
      · cases hn
        refine ⟨?_, by simp⟩
        split
        · exact ⟨h.start, h.final, h.currTo⟩
        · exact h
      · cases hn
  | timeout =>
      simp only [CallWait.next] at hn
      split at hn
      · split at hn
        · cases hn
        · split at hn
          · cases hn
            exact ⟨⟨h.start, h.final, h.currTo⟩, by simp⟩
          · obtain ⟨t, ht, heq⟩ := Option.map_eq_some_iff.mp hn
            cases heq
            unfold double at ht
            split at ht
            · cases ht
              exact ⟨⟨h.start, h.final, Int.mul_nonneg h.currTo (by decide)⟩, by simp⟩
            · cases ht
      · cases hn
  | reply =>
      cases hn
      exact ⟨⟨h.start, h.final, h.currTo⟩, by simp⟩

/-- Every wait of every call is until a sum. -/
theorem isSum_of_run (hto : 0 ≤ limit) {τ : List Wait} (h : (waitSystem limit).Run τ s) :
    Ok limit s ∧ ∀ w ∈ τ, IsSum w := by
  refine h.invariant (I := fun τ s => Ok limit s ∧ ∀ w ∈ τ, IsSum w) ?_ ?_
  · rintro s ⟨now, hnow, hs⟩
    obtain ⟨d, hd, heq⟩ := Option.bind_eq_some_iff.mp hs
    cases heq
    exact ⟨⟨hnow, fun _ => hd, by change 0 ≤ toMin; decide⟩, by simp⟩
  · intro τ s a s' es ⟨hok, hτ⟩ hn
    obtain ⟨hok', hes⟩ := hok.next hto hn
    refine ⟨hok', fun w hw => ?_⟩
    rcases List.mem_append.mp hw with hw | hw
    · exact hτ w hw
    · exact hes w hw

end CallWait

/-- A deadline is valid and exact unless its nanoseconds add up to a second or its seconds do not fit;
valid deadlines are compared by time; and the deadlines that `call1` waits for are such sums, so POSIX
accepts each one unless its nanoseconds add up to a second. -/
theorem deadlines_iff (a b : Timespec) (ms limit : Int) :
    (a.Valid → 0 ≤ ms →
      ((∃ d, addTimespec a ms = some d ∧ d.Valid ∧ d.ns = a.ns + ms * 10 ^ 6) ↔
        nsecSum a ms ≠ 10 ^ 9 ∧ (a.ns + ms * 10 ^ 6) / 10 ^ 9 < 2 ^ 63)) ∧
    (a.Valid → b.Valid →
      cmpTimespec a b = if a.ns > b.ns then 1 else if a.ns < b.ns then -1 else 0) ∧
    (0 ≤ limit → ∀ τ s, (waitSystem limit).Run τ s → ∀ w ∈ τ,
      addTimespec w.base w.ms = some w.deadline ∧ w.deadline.ns = w.base.ns + w.ms * 10 ^ 6 ∧
      (w.deadline.Valid ↔ nsecSum w.base w.ms ≠ 10 ^ 9)) := by
  refine ⟨fun ha hms => ⟨?_, ?_⟩, cmpTimespec_eq, ?_⟩
  · rintro ⟨d, hd, hv, -⟩
    have hne := (valid_addTimespec_iff ha hms hd).mp hv
    exact ⟨hne, (addTimespec_defined_iff ha hms hne).mp ⟨d, hd⟩⟩
  · rintro ⟨hne, hfit⟩
    obtain ⟨d, hd⟩ := (addTimespec_defined_iff ha hms hne).mpr hfit
    exact ⟨d, hd, (valid_addTimespec_iff ha hms hd).mpr hne, ns_addTimespec ha hms hd⟩
  · intro hto τ s hrun w hw
    have h := (CallWait.isSum_of_run hto hrun).2 w hw
    exact ⟨h.deadline, ns_addTimespec h.base h.ms h.deadline,
      valid_addTimespec_iff h.base h.ms h.deadline⟩

/-- Half a second after half past. The deadline is not accepted, and a call whose first wait is
until it does not time out. -/
theorem addTimespec_boundary :
    addTimespec ⟨100, 500000000⟩ 500 = some ⟨100, 1000000000⟩ ∧
    (¬ (⟨100, 1000000000⟩ : Timespec).Valid) ∧
    ∃ τ s, (waitSystem 500).Run τ s ∧ s.pc = .waiting ⟨100, 1000000000⟩ ∧
      s.next 500 .timeout = none := by
  refine ⟨by decide, by decide, ?_⟩
  refine System.exists_run [.round ⟨100, 500000000⟩]
    (s := { start := ⟨100, 500000000⟩, finaldeadline := ⟨100, 1000000000⟩, currTo := toMin,
            done := false, pc := .top }) ⟨⟨100, 500000000⟩, by decide, by decide⟩ (by decide)

end Yfs.Rpc
