import Mathlib.Algebra.Order.Ring.Int
import Mathlib.Tactic.Linarith
import Yfs.Rpc.Deadline

/-!
# The backoff of `call1`

The loop of `call1` as it goes on in time, round by round: the request is sent if it is to be sent, the
next deadline is computed, and the call waits. What happens outside of the call is a `Course`: what
`get_refconn` and `send` do, the readings of the clock, what `pthread_cond_timedwait` returns, and when
each wait is over. The interval is an `int` that is shifted left after each wait, here with the bits
that are lost.

`send` blocks until the data is sent or the connection has failed, and there is no deadline for it: a
call may stay in it (`blocked_send`). If every `get_refconn` and `send` that the loop comes to returns,
the clock does not go back, all deadlines are exact and valid, and every wait ends by a reply or at
its deadline, the loop ends (`backoff_sound`). Before round `n` at least 2ⁿ - 1 times the first interval
has passed, as long as no deadline was cut off. So the interval is at most 2²¹ seconds when it is used
for a sum, which just fits. The shift after the last wait may overflow, but `finaldeadline.tv_sec` is 0
by then and the interval is not used again.

`waitSystem` has the same loop without the time, and no step for a shift that overflows. Unless the
limit is so large that one does, every such course is a run of it (`Course.Fair.run`).
-/

namespace Yfs.Rpc

open Yfs.Lib

/-! ## The loop in time -/

/-- `pthread_cond_timedwait` returns. -/
structure Wake where
  /-- It returns `ETIMEDOUT`. -/
  timedOut : Bool
  /-- `ca.done` at that time. -/
  done : Bool
  deriving DecidableEq, Repr

/-- What happens outside of the call in one round. -/
structure Round where
  /-- `get_refconn` returns, and whether `chan_` is not null then. -/
  refconn : Option Bool
  reachable : Bool
  /-- There is a forgotten request to be sent first, and whether its `send` returns. -/
  forgot : Option Bool
  /-- The `send` of the request returns. -/
  sent : Bool
  now : Timespec
  /-- `ca.done` when `ca.m` is locked. -/
  done : Bool
  wakes : List Wake
  /-- The time when the wait is over. -/
  ended : Timespec
  /-- `ch->isdead()` after the wait. -/
  dead : Bool
  deriving DecidableEq, Repr

/-- What happens outside of a call. -/
structure Course where
  /-- `retrans_`. -/
  retrans : Bool
  /-- The reading of the clock before the loop. -/
  start : Timespec
  round : Nat → Round
  /-- `ca.done` when `call1` returns. -/
  late : Bool
  intret : Int32

/-- A wait that is over. -/
structure Waited where
  wait : Wait
  ended : Timespec
  /-- `ca.done` when it was over. -/
  done : Bool
  deriving DecidableEq, Repr

inductive Returned where
  /-- `ca.intret`. -/
  | intret (r : Int32)
  | timeoutFailure
  deriving DecidableEq, Repr

/-- The inner loop, where `ca.done` is not set at first: `ca.done` at its end, if it ends. -/
def innerWait : List Wake → Option Bool
  | [] => none
  | w :: ws => if w.timedOut ∨ w.done then some w.done else innerWait ws

/-- `<<= 1` on an `int`. -/
def shiftInt (x : Int) : Int := (2 * x).bmod (2 ^ 32)

/-- One round of the loop, from the deadline on. -/
def CallWait.turn (limit : Int) (s : CallWait) (r : Round) : Option (CallWait × List Waited) := do
  let (s, ws) ← { s with done := r.done }.round limit r.now
  match ws with
  | [] => return (s, [])
  | w :: _ =>
      let done ← innerWait r.wakes
      if done then return ({ s with done, pc := .left }, [{ wait := w, ended := r.ended, done }])
      else return ({ s with currTo := shiftInt s.currTo, pc := .top },
        [{ wait := w, ended := r.ended, done }])

/-- `call1` in its loop. -/
structure CallLoop extends CallWait where
  transmit : Bool
  /-- `ch` is not null. -/
  ch : Bool
  deriving DecidableEq, Repr

namespace CallLoop

/-- The section of the loop that sends the request. `none` says that it does not return. -/
def send (s : CallLoop) (r : Round) : Option CallLoop :=
  if s.transmit then do
    let chan ← r.refconn
    let s := { s with transmit := false, ch := s.ch || chan }
    if s.ch ∧ r.reachable ∧ (r.forgot = some false ∨ r.sent = false) then none else some s
  else some s

/-- One round of the loop. -/
def turn (limit : Int) (retrans : Bool) (s : CallLoop) (r : Round) :
    Option (CallLoop × List Waited) := do
  let s ← s.send r
  let (t, ws) ← s.toCallWait.turn limit r
  return ({ toCallWait := t, transmit := retrans && (!s.ch || r.dead), ch := s.ch }, ws)

end CallLoop

namespace Course

/-- The call after `n` rounds, with its waits so far. It stays as it is when it has left the loop. -/
def after (limit : Int) (e : Course) : Nat → Option (CallLoop × List Waited)
  | 0 =>
      (CallWait.new limit e.start).map fun t =>
        ({ toCallWait := t, transmit := true, ch := false }, [])
  | n + 1 => do
      let (s, ws) ← after limit e n
      if s.pc = .left then return (s, ws)
      else
        let (s, ws') ← s.turn limit e.retrans (e.round n)
        return (s, ws ++ ws')

/-- Every `get_refconn` and `send` that the loop comes to returns. -/
def Sends (limit : Int) (e : Course) : Prop :=
  ∀ {n s ws}, e.after limit n = some (s, ws) → s.pc = .top → ∃ s', s.send (e.round n) = some s'

/-- What `call1` returns when it has left the loop in `s`. -/
def returned (e : Course) (s : CallLoop) : Returned :=
  if s.done || e.late then .intret e.intret else .timeoutFailure

end Course

/-! ## What is assumed -/

/-- The sum is exact, and POSIX accepts it. -/
def ExactSum (a : Timespec) (ms : Int) : Prop :=
  ∃ d, addTimespec a ms = some d ∧ d.Valid ∧ d.ns = a.ns + ms * 10 ^ 6

/-- What the clock gives. -/
def Timespec.Reading (t : Timespec) : Prop := t.Valid ∧ 0 < t.sec

/-- The clock does not go back, all deadlines that the loop comes to are exact and valid, and every wait
that it comes to ends by a reply or by timing out, and not before its deadline. -/
structure Course.Fair (limit : Int) (e : Course) : Prop where
  start : e.start.Reading
  now : ∀ n, (e.round n).now.Reading
  first : e.start.ns ≤ (e.round 0).now.ns
  later : ∀ n, (e.round n).now.ns ≤ (e.round n).ended.ns ∧
    (e.round n).ended.ns ≤ (e.round (n + 1)).now.ns
  final : ExactSum e.start limit
  sums : ∀ {n s ws s₁}, e.after limit n = some (s, ws) → s.pc = .top → s.send (e.round n) = some s₁ →
    s.finaldeadline.sec ≠ 0 → ExactSum (e.round n).now s.currTo
  waits : ∀ {n s ws s₁ t w}, e.after limit n = some (s, ws) → s.pc = .top →
    s.send (e.round n) = some s₁ →
    { s.toCallWait with done := (e.round n).done }.round limit (e.round n).now = some (t, [w]) →
    ∃ done, innerWait (e.round n).wakes = some done ∧
      (done = false → w.deadline.ns ≤ (e.round n).ended.ns)

/-! ## One round -/

section
variable {limit : Int} {s s₁ : CallWait} {r : Round} {w : Wait}

/-- The deadline is cut off at the final one, which is used then. -/
theorem CallWait.round_of_cut (limit : Int) {now d : Timespec} (hsec : s.finaldeadline.sec ≠ 0)
    (hd : addTimespec now s.currTo = some d) (hcut : cmpTimespec d s.finaldeadline > 0) :
    s.round limit now = some (CallWait.await
      { s with finaldeadline := { s.finaldeadline with sec := 0 } }
      { deadline := s.finaldeadline, base := s.start, ms := limit }) := by
  rw [round, if_neg hsec, hd]
  show (if cmpTimespec d s.finaldeadline > 0 then _ else _) = _
  rw [if_pos hcut]
  rfl

theorem CallWait.round_of_next (limit : Int) {now d : Timespec} (hsec : s.finaldeadline.sec ≠ 0)
    (hd : addTimespec now s.currTo = some d) (hnext : ¬ cmpTimespec d s.finaldeadline > 0) :
    s.round limit now = some (s.await { deadline := d, base := now, ms := s.currTo }) := by
  rw [round, if_neg hsec, hd]
  show (if cmpTimespec d s.finaldeadline > 0 then _ else _) = _
  rw [if_neg hnext]
  rfl

/-- A round that comes to the wait: there is a reply, or the wait times out without one. -/
theorem CallWait.turn_cases (hround : { s with done := r.done }.round limit r.now = some (s₁.await w))
    (hdone : s₁.done = r.done)
    (hwait : r.done = false → ∃ done, innerWait r.wakes = some done) :
    ∃ s' ws', s.turn limit r = some (s', ws') ∧ (∀ v ∈ ws', v.wait = w) ∧
      ((s'.pc = .left ∧ s'.done = true) ∨
       (r.done = false ∧ innerWait r.wakes = some false ∧
        s' = { s₁ with currTo := shiftInt s₁.currTo, pc := .top } ∧
        ws' = [{ wait := w, ended := r.ended, done := false }])) := by
  cases hd : r.done with
  | true =>
      refine ⟨{ s₁ with pc := .left }, [], ?_, by simp, .inl ⟨rfl, hdone.trans hd⟩⟩
      rw [turn, hround, await_of_done (hdone.trans hd)]
      rfl
  | false =>
      obtain ⟨done, hinner⟩ := hwait hd
      have hturn : s.turn limit r = if done = true
          then some ({ s₁ with done, pc := .left }, [{ wait := w, ended := r.ended, done }])
          else some ({ s₁ with currTo := shiftInt s₁.currTo, pc := .top },
            [{ wait := w, ended := r.ended, done }]) := by
        rw [turn, hround, await_of_not_done (hdone.trans hd)]
        show (innerWait r.wakes >>= _) = _
        rw [hinner]
        rfl
      cases done with
      | true => exact ⟨_, _, hturn, by simp, .inl ⟨rfl, rfl⟩⟩
      | false => exact ⟨_, _, hturn, by simp, .inr ⟨rfl, hinner, rfl, rfl⟩⟩

/-- After the final deadline was used there is nothing to wait for. -/
theorem CallWait.turn_of_last (h : s.finaldeadline.sec = 0) (r : Round) :
    s.turn limit r = some ({ s with done := r.done, pc := .left }, []) := by
  have hround : { s with done := r.done }.round limit r.now =
      some ({ s with done := r.done, pc := .left }, []) := if_pos h
  rw [turn, hround]
  rfl

/-- The interval doubles as long as it fits. -/
theorem shiftInt_of_lt {x : Int} (hlo : 0 ≤ x) (hhi : 2 * x < 2 ^ 31) : shiftInt x = 2 * x := by
  rw [shiftInt]
  apply Int.bmod_eq_of_le
  · omega
  · omega

theorem shiftInt_pow {n : Nat} (h : n + 1 ≤ 21) : shiftInt (toMin * 2 ^ n) = toMin * 2 ^ (n + 1) := by
  have hpow : (2 : Int) ^ (n + 1) ≤ 2 ^ 21 := pow_le_pow_right₀ (by decide) h
  have hpos : (0 : Int) < 2 ^ n := by positivity
  rw [pow_succ] at hpow ⊢
  rw [toMin, shiftInt_of_lt (by omega) (by omega)]
  omega

/-- Before the limit there are at most 21 doublings. -/
theorem le_of_pow_le {n : Nat} (hlimit : limit < 2 ^ 31) (h : toMin * (2 ^ n - 1) ≤ limit) :
    n ≤ 21 := by
  by_contra hn
  have hpow : (2 : Int) ^ 22 ≤ 2 ^ n := pow_le_pow_right₀ (by decide) (by omega)
  simp only [toMin] at h
  omega

end

/-! ## The course of the loop -/

namespace Course

variable {limit : Int} {e : Course} {n : Nat} {s s₁ : CallLoop} {ws : List Waited}

/-- A time that has passed before round `n`. -/
def time (e : Course) : Nat → Int
  | 0 => e.start.ns
  | n + 1 => (e.round n).ended.ns

/-- The last wait was until `start` and the limit, and timed out without a reply. -/
def TimedOut (limit : Int) (e : Course) (ws : List Waited) : Prop :=
  ∃ pre v, ws = pre ++ [v] ∧ addTimespec e.start limit = some v.wait.deadline ∧
    v.wait.deadline.ns ≤ v.ended.ns ∧ v.done = false

/-- Where the loop is before round `n`. -/
inductive Phase (limit : Int) (e : Course) (n : Nat) (s : CallWait) (ws : List Waited) : Prop where
  /-- No deadline was cut off so far. -/
  | backing (pc : s.pc = .top) (start : s.start = e.start)
      (final : addTimespec e.start limit = some s.finaldeadline)
      (currTo : s.currTo = toMin * 2 ^ n) (spent : toMin * (2 ^ n - 1) ≤ limit)
      (time : e.start.ns + toMin * (2 ^ n - 1) * 10 ^ 6 ≤ e.time n)
  /-- The final deadline was used. -/
  | last (pc : s.pc = .top) (sec : s.finaldeadline.sec = 0) (timedOut : TimedOut limit e ws)
  | left (pc : s.pc = .left) (done : s.done = true ∨ TimedOut limit e ws)

/-- No wait so far was longer than the limit. -/
def Within (limit : Int) (e : Course) (ws : List Waited) : Prop :=
  ∀ v ∈ ws, v.wait.deadline.ns ≤ e.start.ns + limit * 10 ^ 6

theorem Fair.time_le (h : e.Fair limit) (n : Nat) : e.time n ≤ (e.round n).now.ns := by
  cases n with
  | zero => exact h.first
  | succ n => exact (h.later n).2

theorem Fair.deadline (h : e.Fair limit) {d : Timespec} (hd : addTimespec e.start limit = some d) :
    d.Valid ∧ d.ns = e.start.ns + limit * 10 ^ 6 := by
  obtain ⟨d', hd', hvalid, hns⟩ := h.final
  rw [hd'] at hd
  cases hd
  exact ⟨hvalid, hns⟩

/-- The final deadline is not the mark of the last round. -/
theorem Fair.final_sec (h : e.Fair limit) (hlo : 0 ≤ limit) {d : Timespec}
    (hd : addTimespec e.start limit = some d) : d.sec ≠ 0 := by
  obtain ⟨hvalid, hns⟩ := h.deadline hd
  have hsec := h.start.2
  have hlt := hvalid.nsec_lt
  have hnn := h.start.1.nsec_nonneg
  intro hzero
  rw [Timespec.ns, Timespec.ns, hzero] at hns
  nlinarith

/-- Sending changes nothing that is about time. -/
theorem send_toCallWait {r : Round} (h : s.send r = some s₁) : s₁.toCallWait = s.toCallWait := by
  unfold CallLoop.send at h
  split at h
  · obtain ⟨chan, -, h⟩ := Option.bind_eq_some_iff.mp h
    dsimp only at h
    split at h
    · cases h
    · cases h
      rfl
  · cases h
    rfl

theorem after_succ_of_top (hafter : e.after limit n = some (s, ws)) (hpc : s.pc = .top)
    (hsend : s.send (e.round n) = some s₁) {t : CallWait} {ws' : List Waited}
    (hturn : s.toCallWait.turn limit (e.round n) = some (t, ws')) :
    ∃ s', e.after limit (n + 1) = some (s', ws ++ ws') ∧ s'.toCallWait = t := by
  refine ⟨⟨t, e.retrans && (!s₁.ch || (e.round n).dead), s₁.ch⟩, ?_, rfl⟩
  have hloop : s.turn limit e.retrans (e.round n) =
      some (⟨t, e.retrans && (!s₁.ch || (e.round n).dead), s₁.ch⟩, ws') := by
    rw [CallLoop.turn, hsend]
    show (s₁.toCallWait.turn limit (e.round n) >>= _) = _
    rw [send_toCallWait hsend, hturn]
    rfl
  rw [after, hafter]
  show (if s.pc = .left then _ else _) = _
  rw [if_neg (by rw [hpc]; exact WaitPc.noConfusion), hloop]
  rfl

theorem turn_of_after_succ (hafter : e.after limit n = some (s, ws)) (hpc : s.pc = .top)
    {s' : CallLoop} {ws' : List Waited} (hafter' : e.after limit (n + 1) = some (s', ws')) :
    ∃ s₁ vs, s.send (e.round n) = some s₁ ∧
      s.toCallWait.turn limit (e.round n) = some (s'.toCallWait, vs) ∧ ws' = ws ++ vs := by
  rw [after, hafter] at hafter'
  change (if s.pc = .left then _ else _) = _ at hafter'
  rw [if_neg (by rw [hpc]; exact WaitPc.noConfusion)] at hafter'
  obtain ⟨⟨s₂, vs⟩, hturn, heq⟩ := Option.bind_eq_some_iff.mp hafter'
  cases heq
  obtain ⟨s₁, hsend, hturn⟩ := Option.bind_eq_some_iff.mp hturn
  obtain ⟨⟨t, vs'⟩, hturn, heq⟩ := Option.bind_eq_some_iff.mp hturn
  cases heq
  rw [send_toCallWait hsend] at hturn
  exact ⟨s₁, vs, hsend, hturn, rfl⟩

theorem after_succ_of_left (hafter : e.after limit n = some (s, ws)) (hpc : s.pc = .left) :
    e.after limit (n + 1) = some (s, ws) := by
  rw [after, hafter]
  show (if s.pc = .left then _ else _) = _
  rw [if_pos hpc]
  rfl

theorem Within.append {ws' : List Waited} (h : Within limit e ws) (h' : Within limit e ws') :
    Within limit e (ws ++ ws') := by
  intro v hv
  rcases List.mem_append.mp hv with hv | hv
  · exact h v hv
  · exact h' v hv

/-- A round that comes to a wait within the limit. -/
theorem Fair.turn (h : e.Fair limit) (hafter : e.after limit n = some (s, ws)) (hpc : s.pc = .top)
    (hsend : s.send (e.round n) = some s₁) (hwithin : Within limit e ws) {t : CallWait} {w : Wait}
    (hround : { s.toCallWait with done := (e.round n).done }.round limit (e.round n).now =
      some (t.await w))
    (hdone : t.done = (e.round n).done) (hw : w.deadline.ns ≤ e.start.ns + limit * 10 ^ 6) :
    ∃ s' ws', e.after limit (n + 1) = some (s', ws ++ ws') ∧ Within limit e (ws ++ ws') ∧
      ((s'.pc = .left ∧ s'.done = true) ∨
       (w.deadline.ns ≤ (e.round n).ended.ns ∧
        s'.toCallWait = { t with currTo := shiftInt t.currTo, pc := .top } ∧
        ws' = [{ wait := w, ended := (e.round n).ended, done := false }])) := by
  have hwait : (e.round n).done = false → ∃ done, innerWait (e.round n).wakes = some done ∧
      (done = false → w.deadline.ns ≤ (e.round n).ended.ns) := by
    intro hd
    rw [CallWait.await_of_not_done (hdone.trans hd)] at hround
    exact h.waits hafter hpc hsend hround
  obtain ⟨t', ws', hturn, hws, hcases⟩ := CallWait.turn_cases hround hdone fun hd =>
    let ⟨done, hinner, _⟩ := hwait hd
    ⟨done, hinner⟩
  obtain ⟨s', hafter', rfl⟩ := after_succ_of_top hafter hpc hsend hturn
  refine ⟨s', ws', hafter', hwithin.append fun v hv => ?_, ?_⟩
  · rw [hws v hv]
    exact hw
  · rcases hcases with hleft | ⟨hd, hinner, hs', hws'⟩
    · exact .inl hleft
    · obtain ⟨done, hdone', hended⟩ := hwait hd
      rw [hinner] at hdone'
      cases hdone'
      exact .inr ⟨hended rfl, hs', hws'⟩

/-- The loop has gone through `n` rounds, or has ended before. -/
def Reached (limit : Int) (e : Course) (n : Nat) : Prop :=
  ∃ s ws, e.after limit n = some (s, ws) ∧ Within limit e ws ∧ Phase limit e n s.toCallWait ws

/-- The last wait: there is a reply, or it times out and the loop is about to end. -/
theorem Fair.reached_of_cut (h : e.Fair limit) (hafter : e.after limit n = some (s, ws))
    (hpc : s.pc = .top) (hsend : s.send (e.round n) = some s₁) (hwithin : Within limit e ws)
    (hfinal : addTimespec e.start limit = some s.finaldeadline) (hsec : s.finaldeadline.sec ≠ 0)
    {d : Timespec} (hd : addTimespec (e.round n).now s.currTo = some d)
    (hcut : cmpTimespec d s.finaldeadline > 0) : Reached limit e (n + 1) := by
  have hround := CallWait.round_of_cut (s := { s.toCallWait with done := (e.round n).done }) limit hsec
    hd hcut
  obtain ⟨s', ws', hafter', hwithin', hcases⟩ := h.turn hafter hpc hsend hwithin hround rfl
    (h.deadline hfinal).2.le
  refine ⟨s', ws ++ ws', hafter', hwithin', ?_⟩
  rcases hcases with ⟨hleft, hdone⟩ | ⟨hended, hs', rfl⟩
  · exact .left hleft (.inl hdone)
  · rw [hs']
    exact .last rfl rfl ⟨ws, _, rfl, hfinal, hended, rfl⟩

/-- A wait that is not the last one. By its end, the interval has passed once more. -/
theorem Fair.reached_of_next (h : e.Fair limit) (hhi : limit < 2 ^ 31)
    (hafter : e.after limit n = some (s, ws)) (hpc : s.pc = .top)
    (hsend : s.send (e.round n) = some s₁) (hwithin : Within limit e ws)
    (hstart : s.start = e.start) (hfinal : addTimespec e.start limit = some s.finaldeadline)
    (hsec : s.finaldeadline.sec ≠ 0) (hcurrTo : s.currTo = toMin * 2 ^ n)
    (htime : e.start.ns + toMin * (2 ^ n - 1) * 10 ^ 6 ≤ e.time n) {d : Timespec}
    (hd : addTimespec (e.round n).now s.currTo = some d) (hvalid : d.Valid)
    (hns : d.ns = (e.round n).now.ns + s.currTo * 10 ^ 6)
    (hnext : ¬ cmpTimespec d s.finaldeadline > 0) : Reached limit e (n + 1) := by
  obtain ⟨hfvalid, hfns⟩ := h.deadline hfinal
  have hle : d.ns ≤ s.finaldeadline.ns := by
    rw [cmpTimespec_eq hvalid hfvalid] at hnext
    split_ifs at hnext <;> omega
  have hnow := h.time_le n
  have hspent : toMin * (2 ^ (n + 1) - 1) ≤ limit := by
    rw [hns, hcurrTo, hfns] at hle
    rw [pow_succ]
    simp only [toMin] at hle htime ⊢
    omega
  have hround := CallWait.round_of_next (s := { s.toCallWait with done := (e.round n).done }) limit hsec
    hd hnext
  obtain ⟨s', ws', hafter', hwithin', hcases⟩ := h.turn hafter hpc hsend hwithin hround rfl (hfns ▸ hle)
  refine ⟨s', ws ++ ws', hafter', hwithin', ?_⟩
  rcases hcases with ⟨hleft, hdone⟩ | ⟨hended, hs', rfl⟩
  · exact .left hleft (.inl hdone)
  · rw [hs']
    refine .backing rfl hstart hfinal ?_ hspent ?_
    · show shiftInt s.currTo = _
      rw [hcurrTo, shiftInt_pow (le_of_pow_le hhi hspent)]
    · show _ ≤ (e.round n).ended.ns
      rw [hns, hcurrTo] at hended
      rw [pow_succ]
      simp only [toMin] at hended htime ⊢
      omega

/-- After the last wait the loop is left, when the request was sent once more if it had to be. -/
theorem after_succ_of_last (hafter : e.after limit n = some (s, ws)) (hpc : s.pc = .top)
    (hsend : s.send (e.round n) = some s₁) (hsec : s.finaldeadline.sec = 0) :
    ∃ s', e.after limit (n + 1) = some (s', ws) ∧
      s'.toCallWait = { s.toCallWait with done := (e.round n).done, pc := .left } := by
  have h := after_succ_of_top hafter hpc hsend (CallWait.turn_of_last hsec (e.round n))
  rwa [List.append_nil] at h

theorem Fair.reached_succ (h : e.Fair limit) (hlo : 0 ≤ limit) (hhi : limit < 2 ^ 31)
    (hafter : e.after limit n = some (s, ws)) (hwithin : Within limit e ws)
    (hphase : Phase limit e n s.toCallWait ws)
    (hsend : s.pc = .top → ∃ s₁, s.send (e.round n) = some s₁) : Reached limit e (n + 1) := by
  cases hphase with
  | backing hpc hstart hfinal hcurrTo hspent htime =>
      obtain ⟨s₁, hsend⟩ := hsend hpc
      have hsec := h.final_sec hlo hfinal
      obtain ⟨d, hd, hvalid, hns⟩ := h.sums hafter hpc hsend hsec
      by_cases hcut : cmpTimespec d s.finaldeadline > 0
      · exact h.reached_of_cut hafter hpc hsend hwithin hfinal hsec hd hcut
      · exact h.reached_of_next hhi hafter hpc hsend hwithin hstart hfinal hsec hcurrTo htime hd hvalid
          hns hcut
  | last hpc hsec htimedOut =>
      obtain ⟨s₁, hsend⟩ := hsend hpc
      obtain ⟨s', hafter', hs'⟩ := after_succ_of_last hafter hpc hsend hsec
      refine ⟨s', ws, hafter', hwithin, ?_⟩
      rw [hs']
      exact .left rfl (.inr htimedOut)
  | left hpc hdone => exact ⟨s, ws, after_succ_of_left hafter hpc, hwithin, .left hpc hdone⟩

theorem Fair.reached_zero (h : e.Fair limit) (hlo : 0 ≤ limit) : Reached limit e 0 := by
  obtain ⟨d, hd, -⟩ := h.final
  refine ⟨⟨⟨e.start, d, toMin, false, .top⟩, true, false⟩, [], ?_, by simp [Within],
    .backing rfl rfl hd rfl ?_ ?_⟩
  · rw [after, CallWait.new, hd]
    rfl
  · simpa using hlo
  · simp [time]

/-- What holds of every round that the loop comes to. -/
theorem Fair.phase (h : e.Fair limit) (hlo : 0 ≤ limit) (hhi : limit < 2 ^ 31)
    (hafter : e.after limit n = some (s, ws)) :
    Within limit e ws ∧ Phase limit e n s.toCallWait ws := by
  suffices hreached : Reached limit e n by
    obtain ⟨s', ws', hafter', hwithin, hphase⟩ := hreached
    rw [hafter] at hafter'
    cases hafter'
    exact ⟨hwithin, hphase⟩
  induction n generalizing s ws with
  | zero => exact h.reached_zero hlo
  | succ n ih =>
      obtain ⟨⟨t, vs⟩, hprev, -⟩ := Option.bind_eq_some_iff.mp hafter
      obtain ⟨t', vs', hprev', hwithin, hphase⟩ := ih hprev
      refine h.reached_succ hlo hhi hprev' hwithin hphase fun hpc => ?_
      obtain ⟨s₁, -, hsend, -⟩ := turn_of_after_succ hprev' hpc hafter
      exact ⟨s₁, hsend⟩

theorem Fair.reached (h : e.Fair limit) (hlo : 0 ≤ limit) (hhi : limit < 2 ^ 31)
    (hsends : e.Sends limit)
    (n : Nat) : Reached limit e n := by
  induction n with
  | zero => exact h.reached_zero hlo
  | succ n ih =>
      obtain ⟨s, ws, hafter, hwithin, hphase⟩ := ih
      exact h.reached_succ hlo hhi hafter hwithin hphase (hsends hafter)

/-- The loop ends: 22 doublings would take longer than any limit. -/
theorem Fair.ends (h : e.Fair limit) (hlo : 0 ≤ limit) (hhi : limit < 2 ^ 31) (hsends : e.Sends limit) :
    ∃ n ≤ 23, ∃ s ws, e.after limit n = some (s, ws) ∧ s.pc = .left := by
  obtain ⟨s, ws, hafter, -, hphase⟩ := h.reached hlo hhi hsends 22
  cases hphase with
  | backing _ _ _ _ hspent _ => exact absurd (le_of_pow_le hhi hspent) (by decide)
  | last hpc hsec htimedOut =>
      obtain ⟨s₁, hsend⟩ := hsends hafter hpc
      obtain ⟨s', hafter', hs'⟩ := after_succ_of_last hafter hpc hsend hsec
      exact ⟨23, le_rfl, s', ws, hafter', by rw [hs']⟩
  | left hpc hdone => exact ⟨22, by decide, s, ws, hafter, hpc⟩

/-- The interval that is used for a deadline. -/
theorem Phase.currTo_eq (hhi : limit < 2 ^ 31) (h : Phase limit e n s.toCallWait ws) (hpc : s.pc = .top)
    (hsec : s.finaldeadline.sec ≠ 0) : s.currTo = toMin * 2 ^ n ∧ s.currTo < 2 ^ 31 := by
  cases h with
  | backing _ _ _ hcurrTo hspent _ =>
      have hpow : (2 : Int) ^ n ≤ 2 ^ 21 := pow_le_pow_right₀ (by decide) (le_of_pow_le hhi hspent)
      refine ⟨hcurrTo, ?_⟩
      rw [hcurrTo, toMin]
      omega
  | last _ hsec' _ => exact absurd hsec' hsec
  | left hpc' _ =>
      rw [hpc] at hpc'
      cases hpc'

/-- A call that has left the loop has a reply, or has waited until its final deadline. -/
theorem Phase.done_or_timedOut (h : Phase limit e n s.toCallWait ws) (hpc : s.pc = .left) :
    s.done = true ∨ TimedOut limit e ws := by
  cases h with
  | backing hpc' _ _ _ _ _ | last hpc' _ _ =>
      rw [hpc] at hpc'
      cases hpc'
  | left _ hdone => exact hdone

end Course

/-! ## The loop and `waitSystem` -/

section
variable {limit : Int} {s s₁ s' : CallWait} {r : Round} {w : Wait} {vs : List Waited}

/-- `ca.done` may be set at any time. -/
theorem CallWait.exec_reply (limit : Int) (hdone : s.done = false) (b : Bool) :
    ∃ as, (waitSystem limit).exec s as = some ({ s with done := b }, []) := by
  cases b with
  | true => exact ⟨[.reply], rfl⟩
  | false => exact ⟨[], by rw [← hdone]; rfl⟩

theorem CallWait.exec_innerWait (limit : Int) {d : Timespec} {ws : List Wake} {done : Bool}
    (hpc : s.pc = .waiting d) (hd : d.Valid) (hdone : s.done = false) (hlo : 0 ≤ s.currTo)
    (hhi : 2 * s.currTo < 2 ^ 31) (h : innerWait ws = some done) :
    ∃ as, (waitSystem limit).exec s as = some (if done
      then { s with done, pc := .left } else { s with currTo := shiftInt s.currTo, pc := .top },
        []) := by
  induction ws with
  | nil => cases h
  | cons v ws ih =>
      rw [innerWait] at h
      split at h
      · rename_i hv
        cases h
        cases hvd : v.done with
        | true =>
            refine ⟨[.reply, .wake], ?_⟩
            simp [System.exec, waitSystem, CallWait.next, hpc]
        | false =>
            have hdouble : s.double = some { s with currTo := shiftInt s.currTo, pc := .top } := by
              rw [shiftInt_of_lt hlo hhi, Int.mul_comm]
              exact if_pos (by omega)
            refine ⟨[.timeout], ?_⟩
            simp [System.exec, waitSystem, CallWait.next, hpc, hd, hdone, hdouble]
      · exact ih h

/-- A round that comes to a wait is a run of `waitSystem`, as long as the shift fits. -/
theorem CallWait.exec_turn (hpc : s.pc = .top) (hdone : s.done = false) (hnow : r.now.Valid)
    (hround : { s with done := r.done }.round limit r.now = some (s₁.await w))
    (hs₁ : s₁.done = r.done) (hlo : 0 ≤ s₁.currTo) (hhi : 2 * s₁.currTo < 2 ^ 31)
    (hw : w.deadline.Valid) (h : s.turn limit r = some (s', vs)) :
    (s'.pc = .top → s'.done = false) ∧
    ∃ as, (waitSystem limit).exec s as = some (s', vs.map Waited.wait) := by
  obtain ⟨as, has⟩ := exec_reply limit hdone r.done
  have hstep : (waitSystem limit).exec { s with done := r.done } [.round r.now] = some (s₁.await w) :=
    System.exec_singleton.mpr ((if_pos ⟨hpc, hnow⟩).trans hround)
  rw [turn, hround] at h
  cases hd : r.done with
  | true =>
      rw [await_of_done (hs₁.trans hd)] at h hstep
      cases h
      exact ⟨nofun, as ++ [.round r.now], System.exec_append.mpr ⟨_, [], [], has, hstep, rfl⟩⟩
  | false =>
      rw [await_of_not_done (hs₁.trans hd)] at h hstep
      change (innerWait r.wakes >>= _) = _ at h
      obtain ⟨done, hinner, h⟩ := Option.bind_eq_some_iff.mp h
      obtain ⟨as', has'⟩ := exec_innerWait limit (s := { s₁ with pc := .waiting w.deadline }) rfl hw
        (hs₁.trans hd) hlo hhi hinner
      have hexec := System.exec_append.mpr ⟨_, [], [w], has,
        System.exec_append.mpr ⟨_, [w], [], hstep, has', rfl⟩, rfl⟩
      cases done with
      | true =>
          cases h
          exact ⟨nofun, _, hexec⟩
      | false =>
          cases h
          exact ⟨fun _ => hs₁.trans hd, _, hexec⟩

end

namespace Course

variable {limit : Int} {e : Course} {n : Nat} {s s₁ : CallLoop} {ws : List Waited}

/-- A round before the last one comes to a wait until a valid deadline, with the interval as it was. -/
theorem Fair.round_await (h : e.Fair limit) (hafter : e.after limit n = some (s, ws))
    (hpc : s.pc = .top)
    (hsend : s.send (e.round n) = some s₁)
    (hfinal : addTimespec e.start limit = some s.finaldeadline) (hsec : s.finaldeadline.sec ≠ 0) :
    ∃ (t : CallWait) (w : Wait),
      { s.toCallWait with done := (e.round n).done }.round limit (e.round n).now = some (t.await w) ∧
      t.done = (e.round n).done ∧ t.currTo = s.currTo ∧ w.deadline.Valid := by
  obtain ⟨d, hd, hvalid, -⟩ := h.sums hafter hpc hsend hsec
  by_cases hcut : cmpTimespec d s.finaldeadline > 0
  · have hround := CallWait.round_of_cut (s := { s.toCallWait with done := (e.round n).done }) limit
      hsec hd hcut
    exact ⟨_, _, hround, rfl, rfl, (h.deadline hfinal).1⟩
  · have hround := CallWait.round_of_next (s := { s.toCallWait with done := (e.round n).done }) limit
      hsec hd hcut
    exact ⟨_, _, hround, rfl, rfl, hvalid⟩

/-- With a limit that 21 doublings would take longer than, no shift overflows, not even the one
after the last wait, and a course is a run of `waitSystem`. -/
theorem Fair.run (h : e.Fair limit) (hlo : 0 ≤ limit) (hhi : limit < toMin * (2 ^ 21 - 1))
    (hafter : e.after limit n = some (s, ws)) :
    (s.pc = .top → s.done = false) ∧ (waitSystem limit).Run (ws.map Waited.wait) s.toCallWait := by
  induction n generalizing s ws with
  | zero =>
      obtain ⟨t, hnew, heq⟩ := Option.map_eq_some_iff.mp hafter
      cases heq
      refine ⟨fun _ => ?_, .start ⟨e.start, h.start.1, hnew⟩⟩
      obtain ⟨d, -, hs⟩ := Option.bind_eq_some_iff.mp hnew
      cases hs
      rfl
  | succ n ih =>
      rw [toMin] at hhi
      obtain ⟨⟨t, vs⟩, hafter₁, -⟩ := Option.bind_eq_some_iff.mp hafter
      obtain ⟨-, hphase⟩ := h.phase hlo (by omega) hafter₁
      obtain ⟨hdone, hrun⟩ := ih hafter₁
      cases hphase with
      | backing hpc _ hfinal hcurrTo hspent _ =>
          obtain ⟨s₁, vs', hsend, hturn, rfl⟩ := turn_of_after_succ hafter₁ hpc hafter
          obtain ⟨t₁, w, hround, ht₁, hcurr, hw⟩ :=
            h.round_await hafter₁ hpc hsend hfinal (h.final_sec hlo hfinal)
          have hpos : (0 : Int) < 2 ^ n := by positivity
          rw [toMin] at hcurrTo hspent
          have hn : n < 21 := (pow_lt_pow_iff_right₀ (a := (2 : Int)) (by decide)).mp (by omega)
          have hpow : (2 : Int) ^ n ≤ 2 ^ 20 := pow_le_pow_right₀ (by decide) (by omega)
          obtain ⟨hdone', as, has⟩ := CallWait.exec_turn hpc (hdone hpc) (h.now n).1 hround ht₁
            (by omega) (by omega) hw hturn
          rw [List.map_append]
          exact ⟨hdone', hrun.exec has⟩
      | last hpc hsec _ =>
          obtain ⟨s₁, vs', hsend, hturn, rfl⟩ := turn_of_after_succ hafter₁ hpc hafter
          rw [CallWait.turn_of_last hsec] at hturn
          obtain ⟨hs, rfl⟩ :
              { t.toCallWait with done := (e.round n).done, pc := .left } = s.toCallWait ∧
              [] = vs' := Prod.ext_iff.mp (Option.some.inj hturn)
          obtain ⟨as, has⟩ := CallWait.exec_reply limit (hdone hpc) (e.round n).done
          have hstep : (waitSystem limit).next { t.toCallWait with done := (e.round n).done }
              (.round (e.round n).now) =
                some ({ t.toCallWait with done := (e.round n).done, pc := .left }, []) :=
            (if_pos ⟨hpc, (h.now n).1⟩).trans (if_pos hsec)
          have hleft := (hrun.exec has).step hstep
          rw [← hs]
          exact ⟨nofun, by simpa using hleft⟩
      | left hpc _ =>
          rw [after_succ_of_left hafter₁ hpc] at hafter
          cases hafter
          exact ⟨hdone, hrun⟩

end Course

/-- Let the clock not go back, all deadlines be exact and valid, and every wait end by a reply or by
timing out, at its deadline or later. If every `get_refconn` and `send` that the loop comes to returns,
the loop ends after at most 23 rounds. In any case, every interval that is used for a deadline is the
first one, doubled once a round, and an `int`; no wait is until later than the start and the limit; and
`timeout_failure` is returned only when a wait until then was the last one and has timed out without a
reply. -/
theorem backoff_sound (limit : Int) (e : Course) (hlo : 0 ≤ limit) (hhi : limit < 2 ^ 31)
    (h : e.Fair limit) :
    (e.Sends limit → ∃ n ≤ 23, ∃ s ws, e.after limit n = some (s, ws) ∧ s.pc = .left) ∧
    ∀ n s ws, e.after limit n = some (s, ws) →
      (s.pc = .top → s.finaldeadline.sec ≠ 0 → s.currTo = toMin * 2 ^ n ∧ s.currTo < 2 ^ 31) ∧
      (∀ v ∈ ws, v.wait.deadline.ns ≤ e.start.ns + limit * 10 ^ 6) ∧
      (s.pc = .left → e.returned s = .timeoutFailure → ∃ pre v, ws = pre ++ [v] ∧
        v.wait.deadline.ns = e.start.ns + limit * 10 ^ 6 ∧ v.wait.deadline.ns ≤ v.ended.ns ∧
        v.done = false) := by
  refine ⟨h.ends hlo hhi, fun n s ws hafter => ?_⟩
  obtain ⟨hwithin, hphase⟩ := h.phase hlo hhi hafter
  refine ⟨hphase.currTo_eq hhi, hwithin, fun hpc hret => ?_⟩
  have hnone : s.done ≠ true := by
    intro hs
    rw [Course.returned, hs, Bool.true_or] at hret
    cases hret
  obtain ⟨pre, v, hws, hdeadline, hended, hv⟩ := (hphase.done_or_timedOut hpc).resolve_left hnone
  exact ⟨pre, v, hws, (h.deadline hdeadline).2, hended, hv⟩

/-- Nobody replies: the first wait of one second wakes up once too early and then times out, the second
one is cut off. The channel dies in between, and the request is sent once more. -/
def unanswered : Course where
  retrans := true
  start := ⟨100, 0⟩
  round
    | 0 => { refconn := some true, reachable := true, forgot := none, sent := true, now := ⟨100, 0⟩
             done := false, wakes := [⟨false, false⟩, ⟨true, false⟩], ended := ⟨101, 0⟩, dead := true }
    | 1 => { refconn := some true, reachable := true, forgot := none, sent := true, now := ⟨101, 0⟩
             done := false, wakes := [⟨true, false⟩], ended := ⟨101, 500000000⟩, dead := false }
    | _ => { refconn := some true, reachable := true, forgot := none, sent := true, now := ⟨102, 0⟩
             done := false, wakes := [], ended := ⟨102, 0⟩, dead := false }
  late := false
  intret := 0

namespace Course

theorem unanswered_left (n : Nat) :
    ∃ s ws, unanswered.after 1500 (n + 3) = some (s, ws) ∧ s.pc = .left := by
  induction n with
  | zero => exact ⟨_, _, rfl, rfl⟩
  | succ n ih =>
      obtain ⟨s, ws, hafter, hpc⟩ := ih
      exact ⟨s, ws, after_succ_of_left hafter hpc, hpc⟩

/-- The rounds that begin at the top of the loop. -/
theorem unanswered_top {n : Nat} {s : CallLoop} {ws : List Waited}
    (hafter : unanswered.after 1500 n = some (s, ws)) (hpc : s.pc = .top) :
    (n = 0 ∧ s = ⟨⟨⟨100, 0⟩, ⟨101, 500000000⟩, 1000, false, .top⟩, true, false⟩) ∨
    (n = 1 ∧ s = ⟨⟨⟨100, 0⟩, ⟨101, 500000000⟩, 2000, false, .top⟩, true, true⟩) ∨
    (n = 2 ∧ s.finaldeadline.sec = 0 ∧ s.transmit = false) := by
  match n with
  | 0 =>
      cases hafter
      exact .inl ⟨rfl, rfl⟩
  | 1 =>
      cases hafter
      exact .inr (.inl ⟨rfl, rfl⟩)
  | 2 =>
      cases hafter
      exact .inr (.inr ⟨rfl, rfl, rfl⟩)
  | n + 3 =>
      obtain ⟨s', ws', hafter', hpc'⟩ := unanswered_left n
      rw [hafter] at hafter'
      cases hafter'
      rw [hpc] at hpc'
      cases hpc'

theorem fair_unanswered : unanswered.Fair 1500 where
  start := ⟨by decide, by decide⟩
  now n := by
    match n with
    | 0 => exact ⟨by decide, by decide⟩
    | 1 => exact ⟨by decide, by decide⟩
    | n + 2 =>
        show (⟨102, 0⟩ : Timespec).Reading
        exact ⟨by decide, by decide⟩
  first := by decide
  later n := by
    match n with
    | 0 => exact ⟨by decide, by decide⟩
    | 1 => exact ⟨by decide, by decide⟩
    | n + 2 => exact ⟨le_rfl, le_rfl⟩
  final := ⟨⟨101, 500000000⟩, by decide, by decide, by decide⟩
  sums hafter hpc _ hsec := by
    rcases unanswered_top hafter hpc with ⟨rfl, rfl⟩ | ⟨rfl, rfl⟩ | ⟨rfl, hzero, -⟩
    · exact ⟨⟨101, 0⟩, by decide, by decide, by decide⟩
    · exact ⟨⟨103, 0⟩, by decide, by decide, by decide⟩
    · exact absurd hzero hsec
  waits hafter hpc _ hround := by
    rcases unanswered_top hafter hpc with ⟨rfl, rfl⟩ | ⟨rfl, rfl⟩ | ⟨rfl, hzero, -⟩
    · cases hround
      exact ⟨false, rfl, fun _ => by decide⟩
    · cases hround
      exact ⟨false, rfl, fun _ => by decide⟩
    · rw [CallWait.round, if_pos hzero] at hround
      cases hround

theorem sends_unanswered : unanswered.Sends 1500 := by
  intro n s ws hafter hpc
  rcases unanswered_top hafter hpc with ⟨rfl, rfl⟩ | ⟨rfl, rfl⟩ | ⟨rfl, -, hno⟩
  · exact ⟨_, rfl⟩
  · exact ⟨_, rfl⟩
  · exact ⟨s, if_neg (by rw [hno]; exact Bool.false_ne_true)⟩

end Course

/-- This call ends. -/
theorem backoff_sound_unanswered : unanswered.Fair 1500 ∧ unanswered.Sends 1500 ∧
    (∃ n ≤ 23, ∃ s ws, unanswered.after 1500 n = some (s, ws) ∧ s.pc = .left) ∧
    ∀ n s ws, unanswered.after 1500 n = some (s, ws) →
      ∀ v ∈ ws, v.wait.deadline.ns ≤ unanswered.start.ns + 1500 * 10 ^ 6 := by
  obtain ⟨hends, hall⟩ :=
    backoff_sound 1500 unanswered (by decide) (by decide) Course.fair_unanswered
  exact ⟨Course.fair_unanswered, Course.sends_unanswered, hends Course.sends_unanswered,
    fun n s ws hafter => (hall n s ws hafter).2.1⟩

/-- The peer does not read, and the first `send` of a call with a limit of 120 s does not return. -/
def blockedSend : Course where
  retrans := true
  start := ⟨100, 0⟩
  round _ :=
    { refconn := some true, reachable := true, forgot := none, sent := false, now := ⟨100, 0⟩
      done := false, wakes := [], ended := ⟨100, 0⟩, dead := false }
  late := false
  intret := 0

/-- The clock and the waits are as they should be, and the loop does not end. -/
theorem blocked_send : blockedSend.Fair 120000 ∧
    ¬ ∃ n s ws, blockedSend.after 120000 n = some (s, ws) ∧ s.pc = .left := by
  have hnone : ∀ n, blockedSend.after 120000 (n + 1) = none := by
    intro n
    induction n with
    | zero => rfl
    | succ n ih =>
        rw [Course.after, ih]
        rfl
  -- the loop comes to the first `send`, and not further
  have hstuck : ∀ {n s ws s₁}, blockedSend.after 120000 n = some (s, ws) →
      s.send (blockedSend.round n) = some s₁ → False := by
    intro n s ws s₁ hafter hsend
    cases n with
    | zero =>
        cases hafter
        cases hsend
    | succ n =>
        rw [hnone] at hafter
        cases hafter
  constructor
  · exact
      { start := ⟨by decide, by decide⟩
        now := fun _ => by
          show (⟨100, 0⟩ : Timespec).Reading
          exact ⟨by decide, by decide⟩
        first := by decide
        later := fun _ => ⟨le_rfl, le_rfl⟩
        final := ⟨⟨220, 0⟩, by decide, by decide, by decide⟩
        sums := fun hafter _ hsend _ => (hstuck hafter hsend).elim
        waits := fun hafter _ hsend _ => (hstuck hafter hsend).elim }
  · rintro ⟨n, s, ws, hafter, hpc⟩
    cases n with
    | zero =>
        cases hafter
        cases hpc
    | succ n =>
        rw [hnone] at hafter
        cases hafter

end Yfs.Rpc
