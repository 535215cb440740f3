import Yfs.Net.PollMgr
import Yfs.Net.Receiver

/-!
# `write_cb` of a dead connection

A connection with the poll manager that calls its callbacks. Any number of threads call `send` and
`closeconn`, and the thread of `wait_loop` calls `read_cb` and `write_cb`. A section under the
connection's mutex is one step, with the calls of `add_callback` and `del_callback` in it.

`write_cb` asserts that the connection is not dead. A read or a write that fails in a callback takes
the callback away in the same section, but `closeconn` and a `send` that fails only mark the connection
dead, and call `block_remove_fd` when they have released the mutex. Until then the poll thread may come
to `write_cb`, if a write is registered or has been reported. `write_cb_alive_iff` says that this is
the only way: a schedule is safe, however the poll thread goes on from any point of it, exactly if
neither `closeconn` nor `send` marks the connection dead while `write_cb` is due.
-/

namespace Yfs.Net

open Yfs.Lib
open Yfs.Rpc (Bytes)

/-- The poll thread runs `write_cb`, or may come to it as long as the callback is registered. -/
def writeDue (m : PollMgr) (fd : Nat) : Bool :=
  m.pc.runs .write fd || (m.callbacks fd).isSome && m.due .write fd

/-- A call of `send`. -/
structure Sender where
  buf : Bytes
  pc : SendPc
  /-- Its call of `block_remove_fd`, if it has made one. -/
  remover : Option Nat := none

/-- A connection and the poll manager. -/
structure Polled where
  conn : Connection
  senders : List Sender
  /-- Calls of `closeconn` that have still to call `block_remove_fd`. -/
  closing : Nat
  mgr : PollMgr
  /-- The assertion in `write_cb` has failed. -/
  stopped : Bool

inductive PolledAction where
  | send (b : Bytes) (r : WriteResult)
  | wakeSlot (i : Nat) (r : WriteResult)
  | wakeComplete (i : Nat)
  /-- A `send` that has failed calls `block_remove_fd`. -/
  | block (i : Nat)
  /-- It takes the mutex again. -/
  | relock (i : Nat)
  | closeconn
  /-- A `closeconn` calls `block_remove_fd`. -/
  | closeBlock
  /-- The wait in a call of `block_remove_fd` returns. -/
  | wake (i : Nat)
  | poll (a : PollAction)
  | readCb (input : Bytes) (r₁ r₂ : ReadResult) (accept : Bool)
  | writeCb (r : WriteResult)

/-- A step of the thread of `wait_loop`. -/
def PolledAction.isPoll : PolledAction → Bool
  | poll _ | readCb .. | writeCb _ => true
  | _ => false

inductive PolledEvent where
  /-- `closeconn` or `send` marks the connection dead; `due` if `write_cb` is due. -/
  | killed (due : Bool)
  /-- `write_cb` is entered. -/
  | entered (dead : Bool)
  deriving DecidableEq, Repr

namespace Polled

/-- The rest of `send`'s section, depending on where it waits next. -/
def afterSlot (fd : Nat) (m : PollMgr) : SendPc → Option (PollMgr × List PolledEvent)
  | .completing => (m.addCallback fd .wronly 0).map (·, [])
  | .removing => some (m, [.killed (writeDue m fd)])
  | .waiting | .returned _ => some (m, [])

/-- The calls of `del_callback` in `write_cb`: no PDU is left to write, or the write has failed. -/
def afterWrite (fd : Nat) (m : PollMgr) (c c' : Connection) : PollMgr :=
  if c.wpdu.sz = 0 then m.delCallback fd .wronly
  else if c'.dead then m.delCallback fd .rdwr
  else m

/-- The call of `del_callback` in `read_cb`. -/
def afterRead (fd : Nat) (m : PollMgr) (c c' : Connection) : PollMgr :=
  if c.dead = false ∧ c'.dead = true then m.delCallback fd .rdwr else m

/-- The poll thread comes back from a callback. -/
def back (m : PollMgr) (rs ws : List Nat) : PollMgr := { m with pc := .scan rs ws }

def step (fd : Nat) (s : Polled) : PolledAction → Option (Polled × List PolledEvent)
  | .send b r => do
      let (conn, pc, _) ← s.conn.send b r
      let (mgr, es) ← afterSlot fd s.mgr pc
      return ({ s with conn, mgr, senders := s.senders ++ [{ buf := b, pc }] }, es)
  | .wakeSlot i r => do
      let x ← s.senders[i]?
      let .waiting := x.pc | none
      let (conn, pc, _) ← s.conn.awaitSlot x.buf r
      let (mgr, es) ← afterSlot fd s.mgr pc
      return ({ s with conn, mgr, senders := s.senders.set i { x with pc } }, es)
  | .wakeComplete i => do
      let x ← s.senders[i]?
      let .completing := x.pc | none
      let (conn, pc) := s.conn.awaitComplete
      return ({ s with conn, senders := s.senders.set i { x with pc } }, [])
  | .block i => do
      let x ← s.senders[i]?
      if x.pc = .removing ∧ x.remover = none then
        return ({ s with
          mgr := s.mgr.blockRemoveFd fd
          senders := s.senders.set i { x with remover := some s.mgr.removers.length } }, [])
      else none
  | .relock i => do
      let x ← s.senders[i]?
      let k ← x.remover
      let y ← s.mgr.removers[k]?
      if x.pc = .removing ∧ y.pc = .returned then
        let (conn, pc) := s.conn.finishSend
        return ({ s with conn, senders := s.senders.set i { x with pc } }, [])
      else none
  | .closeconn =>
      if s.conn.dead then some (s, [])
      else some ({ s with conn := s.conn.closeconn, closing := s.closing + 1 },
        [.killed (writeDue s.mgr fd)])
  | .closeBlock =>
      if 0 < s.closing then
        some ({ s with mgr := s.mgr.blockRemoveFd fd, closing := s.closing - 1 }, [])
      else none
  | .wake i => do
      let x ← s.mgr.removers[i]?
      let .waiting _ := x.pc | none
      return ({ s with mgr := s.mgr.finishRemove i x.fd }, [])
  -- a callback ends with its section
  | .poll .finish => none
  | .poll a => do
      let mgr ← s.mgr.poll a
      return ({ s with mgr }, [])
  | .readCb input r₁ r₂ accept => do
      let .running .read fd' _ rs ws := s.mgr.pc | none
      if fd' ≠ fd then none
      else
        let (conn, _) ← s.conn.readCb input r₁ r₂ accept
        return ({ s with conn, mgr := back (afterRead fd s.mgr s.conn conn) rs ws }, [])
  | .writeCb r => do
      let .running .write fd' _ rs ws := s.mgr.pc | none
      if fd' ≠ fd then none
      else if s.conn.dead then return ({ s with stopped := true }, [.entered true])
      else
        let (conn, _) ← s.conn.writeCb r
        return ({ s with conn, mgr := back (afterWrite fd s.mgr s.conn conn) rs ws }, [.entered false])

def next (fd : Nat) (s : Polled) (a : PolledAction) : Option (Polled × List PolledEvent) :=
  if s.stopped then none else s.step fd a

/-- A new connection registers itself for reading. -/
def new (m : PollMgr) : Polled :=
  { conn := {}, senders := [], closing := 0, mgr := m, stopped := false }

end Polled

/-- A connection on descriptor `fd`. -/
def polledSystem (fd : Nat) : System Polled PolledAction PolledEvent where
  init s := ∃ pipe m, (PollMgr.new pipe).addCallback fd .rdonly 0 = some m ∧ s = .new m
  next := Polled.next fd

namespace Polled

variable {fd : Nat} {s s' : Polled} {a : PolledAction} {es : List PolledEvent}

/-! ## What a step can do -/

/-- What a step does to `dead_` and to the poll manager. -/
inductive Effect (fd : Nat) (dead : Bool) (m : PollMgr) : Bool → PollMgr → List PolledEvent → Prop where
  | keep : Effect fd dead m dead m []
  | add {m'} : dead = false → m.addCallback fd .wronly 0 = some m' → Effect fd dead m dead m' []
  | kill : dead = false → Effect fd dead m true m [.killed (writeDue m fd)]
  | block : Effect fd dead m dead (m.blockRemoveFd fd) []
  | wake {i x} : m.removers[i]? = some x → Effect fd dead m dead (m.finishRemove i x.fd) []
  | poll {a m'} : a ≠ .finish → m.poll a = some m' → Effect fd dead m dead m' []
  | read {cb rs ws} : m.pc = .running .read fd cb rs ws → Effect fd dead m dead (back m rs ws) []
  | readFailed {cb rs ws} : m.pc = .running .read fd cb rs ws → dead = false →
      Effect fd dead m true (back (m.delCallback fd .rdwr) rs ws) []
  | write {cb rs ws} : m.pc = .running .write fd cb rs ws → dead = false →
      Effect fd dead m dead (back m rs ws) [.entered false]
  | written {cb rs ws} : m.pc = .running .write fd cb rs ws → dead = false →
      Effect fd dead m dead (back (m.delCallback fd .wronly) rs ws) [.entered false]
  | writeFailed {cb rs ws} : m.pc = .running .write fd cb rs ws → dead = false →
      Effect fd dead m true (back (m.delCallback fd .rdwr) rs ws) [.entered false]
  | stop {cb rs ws} : m.pc = .running .write fd cb rs ws → dead = true →
      Effect fd dead m dead m [.entered true]

theorem awaitComplete_dead (c : Connection) : c.awaitComplete.1.dead = c.dead := by
  unfold Connection.awaitComplete Connection.finishSend
  split <;> rfl

theorem writepdu_dead {c c' : Connection} {r : WriteResult} {succ : Bool} {out : Bytes}
    (h : c.writepdu r = some (c', succ, out)) : c'.dead = c.dead := by
  unfold Connection.writepdu at h
  dsimp only at h
  split at h
  · cases h
  · split at h
    · cases h
      rfl
    · generalize (if c.wpdu.solong = 0 then _ else _) = wpdu at h
      split at h
      · split at h
        · cases h
          rfl
        · cases h
      · cases h
        rfl
      · cases h
        rfl

/-- Where a call of `send` comes to: it only waits for the slot or returns, or it waits until its PDU is
written, or its write has failed. -/
theorem awaitSlot_cases {c c' : Connection} {b out : Bytes} {r : WriteResult} {pc : SendPc}
    (h : c.awaitSlot b r = some (c', pc, out)) :
    (c'.dead = c.dead ∧ pc ≠ .completing ∧ pc ≠ .removing) ∨
    (c.dead = false ∧ c'.dead = false ∧ pc = .completing) ∨
    (c.dead = false ∧ c'.dead = true ∧ pc = .removing) := by
  unfold Connection.awaitSlot at h
  dsimp only at h
  split at h
  · cases h
    exact .inl ⟨rfl, by simp, by simp⟩
  · split at h
    · cases h
      exact .inl ⟨rfl, by simp, by simp⟩
    · rename_i hlive
      simp only [Option.bind_eq_bind, Option.bind_eq_some_iff] at h
      obtain ⟨⟨c₁, succ, out⟩, hwrite, h⟩ := h
      have hlive : c.dead = false := by simpa using hlive
      have hd : c₁.dead = false := (writepdu_dead hwrite).trans hlive
      cases succ with
      | true =>
          cases h
          rw [awaitComplete_dead, hd, hlive]
          unfold Connection.awaitComplete Connection.finishSend
          split
          · exact .inr (.inl ⟨rfl, rfl, rfl⟩)
          · exact .inl ⟨rfl, by simp, by simp⟩
      | false =>
          cases h
          exact .inr (.inr ⟨hlive, rfl, rfl⟩)

/-- The end of a section of `send`. -/
theorem afterSlot_effect {c c' : Connection} {m m' : PollMgr} {b out : Bytes} {r : WriteResult}
    {pc : SendPc} (h : c.awaitSlot b r = some (c', pc, out)) (hm : afterSlot fd m pc = some (m', es)) :
    Effect fd c.dead m c'.dead m' es := by
  obtain ⟨hd, hc, hr⟩ | ⟨hd, hd', rfl⟩ | ⟨hd, hd', rfl⟩ := awaitSlot_cases h
  · rw [hd]
    cases pc with
    | completing => exact absurd rfl hc
    | removing => exact absurd rfl hr
    | waiting =>
        cases hm
        exact .keep
    | returned ret =>
        cases hm
        exact .keep
  · obtain ⟨m'', hadd, heq⟩ := Option.map_eq_some_iff.mp hm
    cases heq
    rw [hd', ← hd]
    exact .add hd hadd
  · cases hm
    rw [hd']
    exact .kill hd

theorem readCb_effect {cb : Callback} {rs ws : List Nat} {c c' : Connection} {m : PollMgr}
    (hpc : m.pc = .running .read fd cb rs ws) (hd : c.dead = true → c' = c) :
    Effect fd c.dead m c'.dead (back (afterRead fd m c c') rs ws) [] := by
  unfold afterRead
  split
  · rename_i hfail
    rw [hfail.2]
    exact .readFailed hpc hfail.1
  · rename_i hsame
    have heq : c'.dead = c.dead := by
      cases hdead : c.dead with
      | true => rw [hd hdead, hdead]
      | false => simpa [hdead] using hsame
    rw [heq]
    exact .read hpc

theorem writeCb_effect {cb : Callback} {rs ws : List Nat} {c c' : Connection} {m : PollMgr}
    (hpc : m.pc = .running .write fd cb rs ws) (hd : c.dead = false) (hsz : c.wpdu.sz = 0 → c' = c) :
    Effect fd c.dead m c'.dead (back (afterWrite fd m c c') rs ws) [.entered false] := by
  unfold afterWrite
  split
  · rename_i hzero
    rw [hsz hzero]
    exact .written hpc hd
  · split
    · rename_i hfail
      rw [hfail]
      exact .writeFailed hpc hd
    · rename_i hlive
      rw [show c'.dead = c.dead by simpa [hd] using hlive]
      exact .write hpc hd

/-- A step has an effect, only a failed assertion stops the process, and the poll thread kills the
connection in its own callbacks only. -/
theorem step_effect (h : s.step fd a = some (s', es)) :
    Effect fd s.conn.dead s.mgr s'.conn.dead s'.mgr es ∧
    (s'.stopped = s.stopped ∨ PolledEvent.entered true ∈ es) ∧
    (a.isPoll = true → ∀ due, PolledEvent.killed due ∉ es) := by
  cases a with
  | send b r =>
      obtain ⟨⟨c, pc, out⟩, hsend, h⟩ := Option.bind_eq_some_iff.mp h
      obtain ⟨⟨m, es'⟩, hm, h⟩ := Option.bind_eq_some_iff.mp h
      cases h
      have heff := afterSlot_effect hsend hm
      exact ⟨heff, .inl rfl, by simp [PolledAction.isPoll]⟩
  | wakeSlot i r =>
      obtain ⟨x, hx, h⟩ := Option.bind_eq_some_iff.mp h
      split at h
      · obtain ⟨⟨c, pc, out⟩, hsend, h⟩ := Option.bind_eq_some_iff.mp h
        obtain ⟨⟨m, es'⟩, hm, h⟩ := Option.bind_eq_some_iff.mp h
        cases h
        exact ⟨afterSlot_effect hsend hm, .inl rfl, by simp [PolledAction.isPoll]⟩
      · cases h
  | wakeComplete i =>
      obtain ⟨x, hx, h⟩ := Option.bind_eq_some_iff.mp h
      split at h
      · cases h
        refine ⟨?_, .inl rfl, by simp [PolledAction.isPoll]⟩
        show Effect fd _ _ s.conn.awaitComplete.1.dead _ _
        rw [awaitComplete_dead]
        exact .keep
      · cases h
  | block i =>
      obtain ⟨x, hx, h⟩ := Option.bind_eq_some_iff.mp h
      split at h
      · cases h
        exact ⟨.block, .inl rfl, by simp [PolledAction.isPoll]⟩
      · cases h
  | relock i =>
      obtain ⟨x, hx, h⟩ := Option.bind_eq_some_iff.mp h
      obtain ⟨k, hk, h⟩ := Option.bind_eq_some_iff.mp h
      obtain ⟨y, hy, h⟩ := Option.bind_eq_some_iff.mp h
      split at h
      · cases h
        exact ⟨.keep, .inl rfl, by simp [PolledAction.isPoll]⟩
      · cases h
  | closeconn =>
      simp only [step] at h
      split at h
      · cases h
        exact ⟨.keep, .inl rfl, by simp [PolledAction.isPoll]⟩
      · rename_i hlive
        cases h
        exact ⟨.kill (by simpa using hlive), .inl rfl, by simp [PolledAction.isPoll]⟩
  | closeBlock =>
      simp only [step] at h
      split at h
      · cases h
        exact ⟨.block, .inl rfl, by simp [PolledAction.isPoll]⟩
      · cases h
  | wake i =>
      obtain ⟨x, hx, h⟩ := Option.bind_eq_some_iff.mp h
      split at h
      · cases h
        exact ⟨.wake hx, .inl rfl, by simp [PolledAction.isPoll]⟩
      · cases h
  | poll p =>
      cases p with
      | finish => cases h
      | _ =>
          obtain ⟨m, hm, h⟩ := Option.bind_eq_some_iff.mp h
          cases h
          exact ⟨.poll (by simp) hm, .inl rfl, by simp [PolledAction.isPoll]⟩
  | readCb input r₁ r₂ accept =>
      simp only [step] at h
      split at h
      · rename_i fd' _ _ _ hpc
        by_cases hfd : fd' = fd
        · subst hfd
          rw [if_neg (not_not_intro rfl)] at h
          obtain ⟨⟨c, n, pdu⟩, hread, h⟩ := Option.bind_eq_some_iff.mp h
          cases h
          refine ⟨readCb_effect hpc fun hd => ?_, .inl rfl, by simp [PolledAction.isPoll]⟩
          rw [readCb_dead hd] at hread
          cases hread
          rfl
        · rw [if_pos hfd] at h
          cases h
      · cases h
  | writeCb r =>
      simp only [step] at h
      split at h
      · rename_i fd' _ _ _ hpc
        by_cases hfd : fd' = fd
        · subst hfd
          rw [if_neg (not_not_intro rfl)] at h
          by_cases hdead : s.conn.dead = true
          · rw [if_pos hdead] at h
            cases h
            exact ⟨.stop hpc hdead, .inr (by simp), by simp [PolledAction.isPoll]⟩
          · rw [if_neg hdead] at h
            obtain ⟨⟨c, out⟩, hwrite, h⟩ := Option.bind_eq_some_iff.mp h
            cases h
            refine ⟨writeCb_effect hpc (by simpa using hdead) fun hsz => ?_,
              .inl rfl, by simp [PolledAction.isPoll]⟩
            unfold Connection.writeCb at hwrite
            rw [if_neg hdead, if_pos hsz] at hwrite
            cases hwrite
            rfl
        · rw [if_pos hfd] at h
          cases h
      · cases h

/-! ## A connection that dies while no write is due stays safe -/

variable {m m' : PollMgr} {dead dead' : Bool}

theorem writeDue_eq_false {m : PollMgr} : writeDue m fd = false ↔
    m.pc.runs .write fd = false ∧ (m.callbacks fd = none ∨ m.due .write fd = false) := by
  unfold writeDue
  cases m.callbacks fd <;> simp

/-- Without a callback, nothing is due but what runs. -/
theorem writeDue_del_rdwr (m : PollMgr) (rs ws : List Nat) :
    writeDue (back (m.delCallback fd .rdwr) rs ws) fd = false := by
  have hgone : (m.aio.unwatchFd fd .rdwr).2 = true := by
    rw [(Watched.select_unwatchFd m.aio fd .rdwr).2.2]
    simp [SelectAio.isSet, SelectAio.clear, PollFlag.reads, PollFlag.writes]
  refine writeDue_eq_false.mpr ⟨rfl, .inl ?_⟩
  simp [back, PollMgr.delCallback, hgone]

/-- A step of `wait_loop` makes no `write_cb` due. -/
theorem writeDue_poll {a : PollAction} (h : m.poll a = some m') (hdue : writeDue m fd = false) :
    writeDue m' fd = false := by
  obtain ⟨hruns, hcb⟩ := writeDue_eq_false.mp hdue
  obtain ⟨hpc, rfl⟩ | ⟨pc, rfl, hgoes⟩ := PollMgr.poll_cases h
  · obtain ⟨pending, removers, heq⟩ := PollMgr.announce_eq m
    rw [heq, writeDue_eq_false]
    rw [PollMgr.due, hpc] at hcb
    exact ⟨rfl, hcb⟩
  · refine writeDue_eq_false.mpr ⟨?_, hcb.imp_right fun hd => ?_⟩
    · rw [← Bool.not_eq_true]
      intro hr
      have hsome := hgoes.callback hr
      have hd := hgoes.may (PollPc.may_of_runs hr)
      rcases hcb with hnone | hd'
      · rw [hnone] at hsome
        cases hsome
      · rw [hd] at hd'
        cases hd'
    · rw [← Bool.not_eq_true]
      intro hd'
      rcases Bool.or_eq_true_iff.mp hd' with hw | hm
      · rw [PollMgr.due, show m.aio.watches .write fd = true from hw] at hd
        cases hd
      · rw [hgoes.may hm] at hd
        cases hd

/-- Less is watched. -/
theorem writeDue_unwatch {flag : PollFlag} (haio : m'.aio = (m.aio.unwatchFd fd flag).1)
    (hpc : m'.pc = m.pc) (hcb : m'.callbacks = m.callbacks) (hdue : writeDue m fd = false) :
    writeDue m' fd = false := by
  rw [writeDue_eq_false] at hdue ⊢
  rw [hpc, hcb]
  refine ⟨hdue.1, hdue.2.imp_right fun hd => ?_⟩
  rw [PollMgr.due, Bool.or_eq_false_iff] at hd ⊢
  rw [hpc, haio]
  refine ⟨?_, hd.2⟩
  rw [← Bool.not_eq_true]
  intro hw
  rw [PollMgr.watches_of_unwatchFd hw] at hd
  cases hd.1

/-- Unless it is killed while `write_cb` is due, a dead connection has none due, and `write_cb` finds
it alive. -/
theorem Effect.safe (h : Effect fd dead m dead' m' es) (hkill : PolledEvent.killed true ∉ es)
    (hsafe : dead = true → writeDue m fd = false) :
    (dead' = true → writeDue m' fd = false) ∧ PolledEvent.entered true ∉ es := by
  cases h with
  | keep => exact ⟨hsafe, by simp⟩
  | add hd => exact ⟨fun hd' => absurd (hd.symm.trans hd') (by simp), by simp⟩
  | kill hd =>
      refine ⟨fun _ => ?_, by simp⟩
      cases hdue : writeDue m fd with
      | false => rfl
      | true => simp [hdue] at hkill
  | block => exact ⟨fun hd => writeDue_unwatch rfl rfl rfl (hsafe hd), by simp⟩
  | @wake i x hx =>
      refine ⟨fun hd => ?_, by simp⟩
      obtain ⟨hruns, hcb⟩ := writeDue_eq_false.mp (hsafe hd)
      refine writeDue_eq_false.mpr ⟨hruns, hcb.imp_left fun hnone => ?_⟩
      simp only [PollMgr.finishRemove, Function.update_apply]
      split
      · rfl
      · exact hnone
  | poll _ hp => exact ⟨fun hd => writeDue_poll hp (hsafe hd), by simp⟩
  | @read cb rs ws hpc =>
      refine ⟨fun hd => ?_, by simp⟩
      obtain ⟨-, hcb⟩ := writeDue_eq_false.mp (hsafe hd)
      refine writeDue_eq_false.mpr ⟨rfl, hcb.imp_right fun hdue => ?_⟩
      rw [PollMgr.due, hpc] at hdue
      exact hdue
  | readFailed => exact ⟨fun _ => writeDue_del_rdwr _ _ _, by simp⟩
  | write hpc hd => exact ⟨fun hd' => absurd (hd.symm.trans hd') (by simp), by simp⟩
  | written hpc hd => exact ⟨fun hd' => absurd (hd.symm.trans hd') (by simp), by simp⟩
  | writeFailed => exact ⟨fun _ => writeDue_del_rdwr _ _ _, by simp⟩
  | stop hpc hd =>
      obtain ⟨hruns, -⟩ := writeDue_eq_false.mp (hsafe hd)
      simp [hpc, PollPc.runs] at hruns

theorem next_eq_some :
    s.next fd a = some (s', es) ↔ s.stopped = false ∧ s.step fd a = some (s', es) := by
  unfold Polled.next
  cases s.stopped <;> simp

theorem safe_of_run {τ : List PolledEvent} (h : (polledSystem fd).Run τ s)
    (hkill : PolledEvent.killed true ∉ τ) :
    (s.conn.dead = true → writeDue s.mgr fd = false) ∧ PolledEvent.entered true ∉ τ := by
  induction h with
  | start hs =>
      obtain ⟨pipe, m, -, rfl⟩ := hs
      exact ⟨fun hd => Bool.noConfusion hd, by simp⟩
  | @step τ s a s' es hrun hn ih =>
      rw [List.mem_append, not_or] at hkill
      obtain ⟨hsafe, hent⟩ := ih hkill.1
      obtain ⟨hsafe', hent'⟩ := (step_effect (next_eq_some.mp hn).2).1.safe hkill.2 hsafe
      exact ⟨hsafe', by simp [hent, hent']⟩

theorem not_killed_of_poll {ps : List PolledAction} (hps : ∀ a ∈ ps, a.isPoll = true)
    (h : (polledSystem fd).exec s ps = some (s', es)) (due : Bool) : PolledEvent.killed due ∉ es := by
  intro he
  obtain ⟨pre, a, post, s₁, s₂, es₁, es₂, rfl, -, hn, he⟩ := System.exec_mem h he
  exact (step_effect (next_eq_some.mp hn).2).2.2 (hps a (by simp)) due he

/-! ## A connection that dies while a write is due -/

/-- The poll thread can come to `write_cb` of the dead connection. -/
def Leads (fd : Nat) (s : Polled) : Prop :=
  ∃ ps, (∀ a ∈ ps, PolledAction.isPoll a = true) ∧
    ∃ s' es, (polledSystem fd).exec s ps = some (s', es) ∧ PolledEvent.entered true ∈ es

theorem Leads.step (ha : a.isPoll = true) (h : s.next fd a = some (s', es)) (hl : Leads fd s') :
    Leads fd s := by
  obtain ⟨ps, hps, s₂, es₂, hexec, hent⟩ := hl
  refine ⟨[a] ++ ps, ?_, s₂, es ++ es₂, ?_, by simp [hent]⟩
  · intro b hb
    rcases List.mem_append.mp hb with hb | hb
    · rw [List.mem_singleton.mp hb]
      exact ha
    · exact hps b hb
  · exact System.exec_cons.mpr ⟨s', es, es₂, h, hexec, rfl⟩

/-- The poll thread elsewhere. -/
def withPc (s : Polled) (pc : PollPc) : Polled := { s with mgr := { s.mgr with pc } }

/-- A dead connection whose callback is registered. -/
structure Exposed (fd : Nat) (s : Polled) : Prop where
  dead : s.conn.dead = true
  stopped : s.stopped = false
  callback : ∃ cb, s.mgr.callbacks fd = some cb
  others : ∀ fd', fd' ≠ fd → s.mgr.callbacks fd' = none
  bounded : s.mgr.aio.Bounded

theorem Exposed.withPc (h : Exposed fd s) (pc : PollPc) : Exposed fd (s.withPc pc) :=
  ⟨h.dead, h.stopped, h.callback, h.others, h.bounded⟩

/-- A step of `wait_loop` outside of the callbacks. -/
theorem Exposed.poll {p : PollAction} (h : Exposed fd s) (m : PollMgr) (hne : p ≠ .finish)
    (hp : s.mgr.poll p = some m) (hl : Leads fd { s with mgr := m }) : Leads fd s := by
  have hstep : s.step fd (.poll p) = some ({ s with mgr := m }, []) := by
    cases p with
    | finish => exact absurd rfl hne
    | _ =>
        simp only [Polled.step, hp]
        rfl
  exact hl.step rfl (next_eq_some.mpr ⟨h.stopped, hstep⟩)

section
variable {cb : Callback} {k : CbKind} {rs ws : List Nat}

/-- `write_cb` is entered. -/
theorem leads_write (hdead : s.conn.dead = true) (hstop : s.stopped = false)
    (hpc : s.mgr.pc = .running .write fd cb rs ws) : Leads fd s := by
  have hstep : s.step fd (.writeCb .again) = some ({ s with stopped := true }, [.entered true]) := by
    simp [Polled.step, hpc, hdead]
  exact ⟨[.writeCb .again], by simp [PolledAction.isPoll], _, _,
    System.exec_singleton.mpr (next_eq_some.mpr ⟨hstop, hstep⟩), by simp⟩

/-- `read_cb` of a dead connection does nothing. -/
theorem Exposed.read (h : Exposed fd s) (hl : Leads fd (s.withPc (.scan rs ws))) :
    Leads fd (s.withPc (.running .read fd cb rs ws)) := by
  have hstep : (s.withPc (.running .read fd cb rs ws)).step fd (.readCb [] .again .again false) =
      some (s.withPc (.scan rs ws), []) := by
    simp [Polled.step, Polled.withPc, readCb_dead h.dead, afterRead, back, h.dead]
  exact hl.step rfl (next_eq_some.mpr ⟨h.stopped, hstep⟩)

/-- The callback is called, and if it is `read_cb`, the thread goes on from there. -/
theorem Exposed.tested (h : Exposed fd s) (hl : k = .read → Leads fd (s.withPc (.scan rs ws))) :
    Leads fd (s.withPc (.tested k fd rs ws)) := by
  obtain ⟨cb, hcb⟩ := h.callback
  refine (h.withPc _).poll (p := .call) { s.mgr with pc := .running k fd cb rs ws } (by simp) ?_ ?_
  · simp [PollMgr.poll, Polled.withPc, hcb]
  · cases k with
    | write => exact leads_write h.dead h.stopped rfl
    | read => exact h.read (hl rfl)

/-- A descriptor that is ready is tested, and called if it is the connection's. -/
theorem Exposed.test (h : Exposed fd s) {fd' : Nat} {pc : PollPc}
    (hpoll : (s.withPc pc).mgr.poll .test = some ((s.withPc pc).mgr.test k fd' rs ws))
    (hl : Leads fd (s.withPc (.scan rs ws)) ∨ (k = .write ∧ fd' = fd)) : Leads fd (s.withPc pc) := by
  refine (h.withPc _).poll _ (by simp) hpoll ?_
  obtain ⟨cb, hcb⟩ := h.callback
  by_cases hfd : fd' = fd
  · subst hfd
    have heq : (s.withPc pc).mgr.test k fd' rs ws = { s.mgr with pc := .tested k fd' rs ws } := by
      simp [PollMgr.test, Polled.withPc, hcb]
    rw [heq]
    refine h.tested fun hk => ?_
    rcases hl with hl | ⟨hw, -⟩
    · exact hl
    · exact absurd (hk.symm.trans hw) (by simp)
  · have heq : (s.withPc pc).mgr.test k fd' rs ws = { s.mgr with pc := .scan rs ws } := by
      simp [PollMgr.test, Polled.withPc, h.others fd' hfd]
    rw [heq]
    exact hl.resolve_right fun hr => hfd hr.2

/-- The thread works through its lists, and comes to `write_cb` or back to the top. -/
theorem Exposed.scan (h : Exposed fd s) (hl : fd ∈ ws ∨ Leads fd (s.withPc .top)) :
    Leads fd (s.withPc (.scan rs ws)) := by
  induction rs with
  | cons fd' rs ih => exact h.test (k := .read) rfl (.inl ih)
  | nil =>
      induction ws with
      | nil =>
          refine (h.withPc _).poll (p := .test) { s.mgr with pc := .top } (by simp) rfl ?_
          exact hl.resolve_left (by simp)
      | cons fd' ws ih =>
          refine h.test (k := .write) rfl ?_
          by_cases hfd : fd' = fd
          · exact .inr ⟨rfl, hfd⟩
          · refine .inl (ih (hl.imp_left fun hmem => ?_))
            rcases List.mem_cons.mp hmem with rfl | hmem
            · exact absurd rfl hfd
            · exact hmem

end

/-- `select` reports the descriptor writable. -/
theorem Exposed.select (h : Exposed fd s) {r w : Nat → Bool} {high : Nat} (hw : w fd = true)
    (hle : fd ≤ high) : Leads fd (s.withPc (.select r w high)) := by
  refine (h.withPc _).poll (p := .ready [] [fd])
    { s.mgr with pc := PollMgr.collect s.mgr.aio.pipe high [] [fd] } (by simp) ?_ ?_
  · simp [PollMgr.poll, Polled.withPc, hw]
  · refine h.scan (.inl ?_)
    simp only [List.mem_filter, List.mem_range]
    exact ⟨by omega, by simp⟩

/-- The sets are copied, with the descriptor in the one for writing. -/
theorem Exposed.copy (h : Exposed fd s) (hw : s.mgr.aio.wfds fd = true) :
    Leads fd (s.withPc .copy) := by
  refine (h.withPc _).poll (p := .copy)
    { s.mgr with pc := .select s.mgr.aio.rfds s.mgr.aio.wfds s.mgr.aio.highfds } (by simp) rfl ?_
  exact h.select hw (h.bounded fd (by simp [SelectAio.isSet, hw]))

/-- A descriptor that is watched for writing is reported in the next round. -/
theorem Exposed.top (h : Exposed fd s) (hw : s.mgr.aio.wfds fd = true) : Leads fd (s.withPc .top) := by
  refine (h.withPc _).poll (p := .top) { s.mgr with pc := .top }.announce (by simp) rfl ?_
  obtain ⟨pending, removers, heq⟩ := PollMgr.announce_eq { s.mgr with pc := .top }
  rw [heq]
  have h' : Exposed fd { s with mgr := { s.mgr with pendingChange := pending, removers } } :=
    ⟨h.dead, h.stopped, h.callback, h.others, h.bounded⟩
  exact h'.copy hw

/-- Only the descriptor's callback is called, and `select` looks at the descriptor if it is in its
set. -/
def PcOk (fd : Nat) : PollPc → Prop
  | .select _ w high => w fd = true → fd ≤ high
  | .tested _ fd' _ _ | .running _ fd' _ _ _ => fd' = fd
  | _ => True

/-- What holds of the poll manager of one connection. -/
structure Ok (fd : Nat) (m : PollMgr) : Prop where
  others : ∀ fd', fd' ≠ fd → m.callbacks fd' = none
  bounded : m.aio.Bounded
  pc : PcOk fd m.pc

theorem Ok.poll {p : PollAction} (h : Ok fd m) (hp : m.poll p = some m') : Ok fd m' := by
  obtain ⟨-, rfl⟩ | ⟨pc, rfl, hgoes⟩ := PollMgr.poll_cases hp
  · obtain ⟨pending, removers, heq⟩ := PollMgr.announce_eq m
    rw [heq]
    exact ⟨h.others, h.bounded, trivial⟩
  · have hself : ∀ {fd'}, (m.callbacks fd').isSome = true → fd' = fd := by
      intro fd' hsome
      by_contra hne
      rw [h.others fd' hne] at hsome
      cases hsome
    refine ⟨h.others, h.bounded, ?_⟩
    have hfound := hgoes.found
    cases pc with
    | select r w high =>
        obtain ⟨-, rfl, rfl⟩ := hfound
        intro hw
        exact h.bounded fd (by simp [SelectAio.isSet, hw])
    | tested => exact hself hfound
    | running => exact hself hfound
    | _ => trivial

theorem others_del (h : ∀ fd', fd' ≠ fd → m.callbacks fd' = none) (flag : PollFlag) :
    ∀ fd', fd' ≠ fd → (m.delCallback fd flag).callbacks fd' = none := by
  intro fd' hne
  simp only [PollMgr.delCallback]
  split
  · rw [Function.update_of_ne hne, h fd' hne]
  · exact h fd' hne

theorem Ok.del (h : Ok fd m) (flag : PollFlag) (rs ws : List Nat) :
    Ok fd (back (m.delCallback fd flag) rs ws) :=
  ⟨others_del h.others flag, h.bounded.unwatchFd fd flag, trivial⟩

theorem Effect.ok (h : Effect fd dead m dead' m' es) (hok : Ok fd m) : Ok fd m' := by
  cases h with
  | keep | kill | stop => exact hok
  | add _ hadd =>
      obtain ⟨-, rfl⟩ := PollMgr.addCallback_eq_some hadd
      refine ⟨fun fd' hne => ?_, hok.bounded.watchFd fd .wronly, hok.pc⟩
      exact (Function.update_of_ne hne _ _).trans (hok.others fd' hne)
  | block => exact ⟨hok.others, hok.bounded.unwatchFd fd .rdwr, hok.pc⟩
  | wake =>
      refine ⟨fun fd' hne => ?_, hok.bounded, hok.pc⟩
      simp only [PollMgr.finishRemove, Function.update_apply]
      split
      · rfl
      · exact hok.others fd' hne
  | poll _ hp => exact hok.poll hp
  | read | write => exact ⟨hok.others, hok.bounded, trivial⟩
  | readFailed | written | writeFailed => exact hok.del _ _ _

theorem ok_of_run {τ : List PolledEvent} (h : (polledSystem fd).Run τ s) : Ok fd s.mgr := by
  refine h.invariant (I := fun _ s => Ok fd s.mgr) ?_ ?_
  · rintro s ⟨pipe, m, hm, rfl⟩
    obtain ⟨-, rfl⟩ := PollMgr.addCallback_eq_some hm
    refine ⟨fun fd' hne => Function.update_of_ne hne _ _, ?_, trivial⟩
    have hnew : (SelectAio.new pipe).Bounded := by
      intro i hi
      simp [SelectAio.isSet, SelectAio.new] at hi
      exact hi.le
    exact hnew.watchFd fd .rdonly
  · intro τ s a s' es hok hn
    exact (step_effect (next_eq_some.mp hn).2).1.ok hok

/-- Wherever the poll thread is, it can come to `write_cb` if that may be called in this round, or if
the descriptor is watched for the next. -/
theorem Exposed.leads (h : Exposed fd s) {pc : PollPc} (hpc : PcOk fd pc)
    (hdue : s.mgr.aio.wfds fd = true ∨ pc.may .write fd = true) : Leads fd (s.withPc pc) := by
  -- what is left of the lists, or the next round
  have hrest : ∀ rs ws : List Nat,
      s.mgr.aio.wfds fd = true ∨ fd ∈ ws → Leads fd (s.withPc (.scan rs ws)) :=
    fun rs ws hor => h.scan (hor.symm.imp_right h.top)
  cases pc with
  | top => exact h.top (hdue.resolve_right (by simp [PollPc.may]))
  | copy => exact h.copy (hdue.resolve_right (by simp [PollPc.may]))
  | select r w high =>
      by_cases hw : w fd = true
      · exact h.select hw (hpc hw)
      · -- the copy is from before the write was registered
        refine (h.withPc _).poll (p := .ready [] [])
          { s.mgr with pc := PollMgr.collect s.mgr.aio.pipe high [] [] } (by simp)
          (by simp [PollMgr.poll, Polled.withPc]) ?_
        exact hrest _ _ (.inl (hdue.resolve_right hw))
  | scan rs ws => exact hrest rs ws (hdue.imp_right List.contains_iff_mem.mp)
  | tested k fd' rs ws =>
      cases hpc
      refine h.tested fun hk => hrest rs ws (hdue.imp_right fun hm => ?_)
      subst hk
      simpa [PollPc.may, CbKind.pick] using hm
  | running k fd' cb rs ws =>
      cases hpc
      cases k with
      | write => exact leads_write h.dead h.stopped rfl
      | read =>
          refine h.read (hrest rs ws (hdue.imp_right fun hm => ?_))
          simpa [PollPc.may, CbKind.pick] using hm

/-- Where `write_cb` is due on a dead connection, the poll thread can come to it. -/
theorem leads_of_due (hok : Ok fd s.mgr) (hdead : s.conn.dead = true) (hstop : s.stopped = false)
    (hdue : writeDue s.mgr fd = true) : Leads fd s := by
  rcases Bool.or_eq_true_iff.mp hdue with hruns | hdue
  · cases hpc : s.mgr.pc with
    | running k fd' cb rs ws =>
        rw [hpc] at hruns
        obtain ⟨rfl, rfl⟩ := of_decide_eq_true hruns
        exact leads_write hdead hstop hpc
    | _ =>
        rw [hpc] at hruns
        cases hruns
  · obtain ⟨hcb, hmay⟩ := Bool.and_eq_true_iff.mp hdue
    have h : Exposed fd s := ⟨hdead, hstop, Option.isSome_iff_exists.mp hcb, hok.others, hok.bounded⟩
    exact h.leads hok.pc (Bool.or_eq_true_iff.mp hmay)

/-- Where the connection is killed. -/
theorem Effect.killed {due : Bool} (h : Effect fd dead m dead' m' es)
    (he : PolledEvent.killed due ∈ es) :
    dead' = true ∧ writeDue m' fd = due ∧ PolledEvent.entered true ∉ es := by
  cases h with
  | kill =>
      cases List.mem_singleton.mp he
      exact ⟨rfl, rfl, by simp⟩
  | _ => simp at he

end Polled

/-- A schedule is safe, however the poll thread goes on from any point of it, exactly if it does not
mark the connection dead while `write_cb` is due. -/
theorem write_cb_alive_iff {fd : Nat} {s₀ : Polled} {as : List PolledAction} {es : List PolledEvent}
    (hinit : (polledSystem fd).init s₀)
    (hexec : ((polledSystem fd).exec s₀ as).map Prod.snd = some es) :
    (∀ pre ps, pre <+: as → (∀ a ∈ ps, PolledAction.isPoll a = true) →
      ∀ s' es', (polledSystem fd).exec s₀ (pre ++ ps) = some (s', es') →
        PolledEvent.entered true ∉ es') ↔
      PolledEvent.killed true ∉ es := by
  obtain ⟨⟨s, es⟩, hall, heq⟩ := Option.map_eq_some_iff.mp hexec
  cases heq
  have hrun : ∀ {as s es}, (polledSystem fd).exec s₀ as = some (s, es) →
      (polledSystem fd).Run es s := by
    intro as s es he
    simpa using (System.Run.start hinit).exec he
  constructor
  · intro hsafe hkill
    -- the step that kills the connection, and the poll thread after it
    obtain ⟨pre, a, post, s₁, s₂, es₁, es₂, rfl, hpre, hn, hkill⟩ := System.exec_mem hall hkill
    have hpre' := System.exec_append.mpr ⟨s₁, es₁, es₂, hpre, System.exec_singleton.mpr hn, rfl⟩
    obtain ⟨hstop, hstep⟩ := Polled.next_eq_some.mp hn
    obtain ⟨heff, hstop', -⟩ := Polled.step_effect hstep
    obtain ⟨hdead, hdue, hent⟩ := heff.killed hkill
    have hlead : Polled.Leads fd s₂ := Polled.leads_of_due (Polled.ok_of_run (hrun hpre')) hdead
      ((hstop'.resolve_right hent).trans hstop) hdue
    obtain ⟨ps, hps, s₃, es₃, hexec', hent'⟩ := hlead
    refine hsafe (pre ++ [a]) ps ⟨post, by simp⟩ hps s₃ _
      (System.exec_append.mpr ⟨s₂, _, es₃, hpre', hexec', rfl⟩) ?_
    simp [hent']
  · rintro hkill pre ps ⟨post, rfl⟩ hps s' es' he
    obtain ⟨s₁, es₁, es₂, hpre, hps', rfl⟩ := System.exec_append.mp he
    obtain ⟨s₁', es₁', es₃, hpre', -, rfl⟩ := System.exec_append.mp hall
    rw [hpre] at hpre'
    cases hpre'
    refine (Polled.safe_of_run (hrun he) ?_).2
    rw [List.mem_append, not_or] at hkill ⊢
    exact ⟨hkill.1, Polled.not_killed_of_poll hps hps' true⟩

/-- The schedule in which a PDU is written in two parts and the connection is closed after the
registration for writing is gone. -/
def closeAfterWrite : List PolledAction :=
  [.send (List.replicate 24 0) (.wrote 4), .poll .top, .poll .copy, .poll (.ready [] [5]), .poll .test,
    .poll .call, .writeCb (.wrote 20), .wakeComplete 0, .poll .test, .poll .top, .poll .copy,
    .poll (.ready [] [5]), .poll .test, .poll .call, .writeCb .again, .closeconn]

theorem write_cb_alive_close :
    ∃ s₀ es, ((polledSystem 5).exec s₀ closeAfterWrite).map Prod.snd = some es ∧
      ∀ pre ps, pre <+: closeAfterWrite → (∀ a ∈ ps, PolledAction.isPoll a = true) →
        ∀ s' es', (polledSystem 5).exec s₀ (pre ++ ps) = some (s', es') →
          PolledEvent.entered true ∉ es' :=
  have hexec : ((polledSystem 5).exec (.new (((PollMgr.new 3).addCallback 5 .rdonly 0).getD (.new 3)))
      closeAfterWrite).map Prod.snd = some [.entered false, .entered false, .killed false] := by decide
  ⟨_, _, hexec, (write_cb_alive_iff ⟨3, _, rfl, rfl⟩ hexec).mpr (by decide)⟩

/-- `closeconn` while a write is pending: the poll thread calls `write_cb` before `block_remove_fd`
has taken the callback away. -/
theorem write_cb_dead :
    ∃ τ s, (polledSystem 5).Run τ s ∧ PolledEvent.entered true ∈ τ ∧ s.stopped = true :=
  System.exists_run
    [.send (List.replicate 24 0) (.wrote 4), .closeconn, .poll .top, .poll .copy,
      .poll (.ready [] [5]), .poll .test, .poll .call, .writeCb (.wrote 20)]
    (s := .new (((PollMgr.new 3).addCallback 5 .rdonly 0).getD (.new 3))) ⟨3, _, rfl, rfl⟩ (by decide)

end Yfs.Net
