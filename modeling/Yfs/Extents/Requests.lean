import Yfs.Extents.Coherence

/-!
# What a thread asks of its clients

The code of `yfs_client` calls `acquire` and `release` of its lock client and `get` and `put` of its
extent client, one after the other, and waits for each to return. `ClientReq.step` is one step of
`cacheSystem` that a thread takes inside such a call, and says what the call returns if the step is
its last. A thread inside `acquire` takes the steps of the lock protocol until it holds the lock, be
they its own sections, those of the handlers it waits for, or the flush of another client's extent.
-/

namespace Yfs.Extents

open Yfs.Lib Yfs.Lock
open Yfs.Rpc (Bytes)

inductive ClientReq where
  | acquire (lid : LockId)
  | release (lid : LockId)
  | get (eid : ExtentId)
  | put (eid : ExtentId) (buf : Bytes)
  deriving DecidableEq, Repr

/-- The lock or extent a request is about. -/
def ClientReq.id : ClientReq → ExtentId
  | .acquire lid | .release lid => lid
  | .get eid | .put eid _ => eid

/-- The activity that takes a step. -/
def CacheAction.act : CacheAction → Act
  | .lock a | .start a _ _ | .serve a _ | .finish a _ => a

/-- The steps the code of a request may take at place `pc` of the lock protocol. -/
def ClientReq.allows (pc : Pc) : ClientReq → CacheAction → Bool
  -- a thread that acquires a lock it holds waits for itself
  | .acquire _, _ => pc ≠ .holding
  | .release _, .lock _ => true
  | .release _, _ => pc ≠ .holding
  | .get _, .start _ op _ => op = .get
  | .get _, .serve .. | .get _, .finish .. => true
  | .put _ buf, .start _ op _ => op = .put buf
  | _, _ => false

/-- What an operation on the extent returns, if a step is its last. -/
def CacheState.answer (s : CacheState) : CacheAction → Option Answer
  | .start a op now => do
      let c ← (s.lock.pc a).site a
      match op.start (s.cache c) now with
      | .done _ r => return r
      | .call _ _ => none
  | .finish a now => do
      let c ← (s.lock.pc a).site a
      match s.op a with
      | .replying p r => return (p.finish (s.cache c) r now).2
      | _ => none
  | _ => none

/-- What a request returns, if the step `x` from `s` to `s'` is its last. Nobody looks at what
`acquire` and `release` return. -/
def ClientReq.answer (a : Act) (s s' : CacheState) (x : CacheAction) : ClientReq → Option Answer
  | .acquire _ => if s'.lock.pc a = .holding then some { ret := .ok } else none
  | .release _ => if s'.lock.pc a = .idle then some { ret := .ok } else none
  | .get _ | .put _ _ => s.answer x

/-- Thread `a` takes a step of its request. -/
def ClientReq.step (q : ClientReq) (a : Act) (s : CacheState) (x : CacheAction) :
    Option (CacheState × Option Answer) :=
  if x.act = a ∧ q.allows (s.lock.pc a) x = true then
    (s.next x).map fun r => (r.1, q.answer a s r.1 x)
  else none

/-! ## What a step leaves alone -/

section

variable {s s' : CacheState} {x : CacheAction} {es : List CacheEvent} {a b : Act}
  {d : Option Bytes}

/-- A step is one of the lock protocol, or it leaves the lock alone and is part of an operation. -/
theorem CacheState.next_cases (h : s.next x = some (s', es)) :
    (∃ l les, x = .lock x.act ∧ Lock.next s.lock x.act = some (l, les) ∧
      s' = { s with lock := l, op := Function.update s.op x.act .idle } ∧ es = les.map .lock) ∨
    (∀ a, x ≠ .lock a) ∧ s'.lock = s.lock ∧ (∃ o, s'.op = Function.update s.op x.act o) ∧
      (es = [] ∨ ∃ op r, es = Op.events x.act r op ∧
        ∀ buf, op = .put buf → ∃ now, x = .start x.act (.put buf) now) := by
  cases x with
  | lock a =>
      left
      simp only [CacheState.next] at h
      split at h
      · simp only [Option.bind_eq_bind, Option.bind_eq_some_iff] at h
        obtain ⟨⟨l, les⟩, hl, h⟩ := h
        cases h
        exact ⟨l, les, rfl, hl, rfl, rfl⟩
      · cases h
  | start a op now =>
      right
      simp only [CacheState.next, Option.bind_eq_bind, Option.bind_eq_some_iff] at h
      obtain ⟨c, -, h⟩ := h
      split at h
      · split at h
        · rename_i e r _
          cases h
          refine ⟨by simp, rfl, ⟨_, rfl⟩, .inr ⟨op, r, rfl, ?_⟩⟩
          rintro buf rfl
          exact ⟨now, rfl⟩
        · cases h
          exact ⟨by simp, rfl, ⟨_, rfl⟩, .inl rfl⟩
      · cases h
  | serve a now =>
      right
      simp only [CacheState.next] at h
      split at h
      · cases h
        exact ⟨by simp, rfl, ⟨_, rfl⟩, .inl rfl⟩
      · cases h
  | finish a now =>
      right
      simp only [CacheState.next, Option.bind_eq_bind, Option.bind_eq_some_iff] at h
      obtain ⟨c, -, h⟩ := h
      split at h
      · rename_i p r _
        cases h
        refine ⟨by simp, rfl, ⟨_, rfl⟩, .inr ⟨p.op, _, rfl, ?_⟩⟩
        -- no RPC belongs to a `put`
        intro buf hop
        cases p <;> cases hop
      · cases h

/-- The places of the other threads. -/
theorem CacheState.next_other (h : s.next x = some (s', es)) (hb : b ≠ x.act) :
    s'.lock.pc b = s.lock.pc b ∧ s'.op b = s.op b := by
  rcases CacheState.next_cases h with ⟨l, les, -, hl, rfl, -⟩ | ⟨-, hlock, ⟨o, hop⟩, -⟩
  · exact ⟨next_pc hl hb, Function.update_of_ne hb _ _⟩
  · rw [hlock, hop]
    exact ⟨rfl, Function.update_of_ne hb _ _⟩

/-- The lock, as long as an operation is at work. -/
theorem CacheState.next_lock (h : s.next x = some (s', es)) (hx : ∀ a, x ≠ .lock a) :
    s'.lock = s.lock := by
  rcases CacheState.next_cases h with ⟨l, les, hlock, -⟩ | ⟨-, hlock, -⟩
  · exact absurd hlock (hx _)
  · exact hlock

/-- The contents, unless they are put. -/
theorem latest_next (h : s.next x = some (s', es))
    (hx : ∀ buf now, x ≠ .start x.act (.put buf) now) : latest d es = d := by
  rcases CacheState.next_cases h with ⟨l, les, -, -, -, rfl⟩ | ⟨-, -, -, rfl | ⟨op, r, rfl, hput⟩⟩
  · exact latest_lock
  · rfl
  · rw [Op.latest_events]
    cases op with
    | put buf =>
        obtain ⟨now, hnow⟩ := hput buf rfl
        exact absurd hnow (hx buf now)
    | _ => rfl

/-- Only a thread that holds the lock puts. -/
theorem holding_of_put {buf : Bytes} {now : UInt32}
    (h : s.next (.start a (.put buf) now) = some (s', es)) : s.lock.pc a = .holding := by
  simp only [CacheState.next, Option.bind_eq_bind, Option.bind_eq_some_iff] at h
  obtain ⟨c, -, h⟩ := h
  split at h
  · rename_i hallowed
    by_contra hp
    simp [Op.allowed, hp] at hallowed
  · cases h

end

/-! ## What a request does -/

/-- The place of a thread that has not called an operation, or is inside `get`. -/
def OpPc.getting : OpPc → Bool
  | .idle | .calling (.get _) | .replying (.get _) _ => true
  | _ => false

section

variable {s s' : CacheState} {x : CacheAction} {a b : Act} {d : Option Bytes} {q : ClientReq}
  {ans : Option Answer} {r : Answer} {ph : ClientId → Phase} {id : ExtentId}

theorem ClientReq.step_eq_some (h : q.step a s x = some (s', ans)) :
    x.act = a ∧ q.allows (s.lock.pc a) x = true ∧
      ∃ es, s.next x = some (s', es) ∧ q.answer a s s' x = ans := by
  unfold ClientReq.step at h
  split at h
  · rename_i hx
    obtain ⟨⟨t, es⟩, hn, heq⟩ := Option.map_eq_some_iff.mp h
    cases heq
    exact ⟨hx.1, hx.2, es, hn, rfl⟩
  · cases h

theorem ClientReq.step_other (h : q.step a s x = some (s', ans)) (hb : b ≠ a) :
    s'.lock.pc b = s.lock.pc b ∧ s'.op b = s.op b := by
  obtain ⟨rfl, -, es, hn, -⟩ := ClientReq.step_eq_some h
  exact CacheState.next_other hn hb

/-- A step that puts nothing. -/
theorem CacheInv.step_quiet (h : CacheInv s ph d) {es : List CacheEvent}
    (hn : s.next x = some (s', es)) (hx : ∀ buf now, x ≠ .start x.act (.put buf) now) :
    ∃ ph', CacheInv s' ph' d := by
  obtain ⟨ph', h', -⟩ := h.next hn
  rw [latest_next hn hx] at h'
  exact ⟨ph', h'⟩

/-- `acquire` leaves the contents alone, and its caller holds the lock when it returns. -/
theorem CacheInv.acquire (h : CacheInv s ph d)
    (hs : (ClientReq.acquire id).step a s x = some (s', ans)) :
    (∃ ph', CacheInv s' ph' d) ∧
      (ans.isSome = true → s'.lock.pc a = .holding ∧ s'.op a = .idle) := by
  obtain ⟨rfl, hallows, es, hn, rfl⟩ := ClientReq.step_eq_some hs
  simp only [ClientReq.allows, decide_eq_true_eq] at hallows
  constructor
  · apply h.step_quiet hn
    intro buf now hx
    apply hallows
    rw [hx] at hn
    exact holding_of_put hn
  · intro hans
    have hp : s'.lock.pc x.act = .holding := by
      by_contra hp
      simp [ClientReq.answer, hp] at hans
    refine ⟨hp, ?_⟩
    rcases CacheState.next_cases hn with ⟨l, les, -, -, rfl, -⟩ | ⟨-, hlock, -⟩
    · exact Function.update_self ..
    · -- the thread would have held the lock before
      rw [hlock] at hp
      exact absurd hp hallows

theorem CacheInv.release (h : CacheInv s ph d)
    (hs : (ClientReq.release id).step a s x = some (s', ans)) : ∃ ph', CacheInv s' ph' d := by
  obtain ⟨rfl, hallows, es, hn, rfl⟩ := ClientReq.step_eq_some hs
  apply h.step_quiet hn
  intro buf now hx
  rw [hx] at hn hallows
  simp only [ClientReq.allows, decide_eq_true_eq] at hallows
  exact hallows (holding_of_put hn)

/-- `get` that finds nothing in the cache waits for its RPC. -/
theorem getting_of_call {e e' : Option ExtentCache} {now : UInt32} {p : Pending}
    (h : Op.get.start e now = .call e' p) : (OpPc.calling p).getting = true := by
  cases e with
  | none =>
      cases h
      rfl
  | some c =>
      simp only [Op.start, Extents.get] at h
      split at h <;> cases h
      rfl

/-- Inside `get`, what it returns is what an observer of the extent sees. -/
theorem CacheState.get_answer (hp : s.lock.pc x.act = .holding)
    (hop : (s.op x.act).getting = true)
    (hallows : (ClientReq.get id).allows (s.lock.pc x.act) x = true) {es : List CacheEvent}
    (hn : s.next x = some (s', es)) :
    (s'.op x.act).getting = true ∧ ∀ r, s.answer x = some r → es = Op.get.events x.act r := by
  cases x with
  | lock b => simp [ClientReq.allows] at hallows
  | start b op now =>
      obtain rfl : op = .get := by simpa [ClientReq.allows] using hallows
      simp only [CacheAction.act] at hp hop ⊢
      simp only [CacheState.next, CacheState.answer, hp, Pc.site, Option.bind_eq_bind,
        Option.bind_some] at hn ⊢
      split at hn
      · cases hstart : Op.get.start (s.cache b.1) now with
        | done e r =>
            rw [hstart] at hn
            cases hn
            refine ⟨by simp [CacheState.set, opDone, OpPc.getting], ?_⟩
            rintro r' ⟨⟩
            rfl
        | call e p =>
            rw [hstart] at hn
            cases hn
            refine ⟨?_, by simp⟩
            simpa [CacheState.set] using getting_of_call hstart
      · cases hn
  | serve b now =>
      simp only [CacheAction.act] at hp hop ⊢
      simp only [CacheState.next] at hn
      split at hn
      · rename_i p hpc
        cases hn
        rw [hpc] at hop
        cases p with
        | get flag => simp [OpPc.getting, CacheState.answer]
        | _ => simp [OpPc.getting] at hop
      · cases hn
  | finish b now =>
      simp only [CacheAction.act] at hp hop ⊢
      simp only [CacheState.next, CacheState.answer, hp, Pc.site, Option.bind_eq_bind,
        Option.bind_some] at hn ⊢
      cases hpc : s.op b with
      | replying p r =>
          simp only [hpc] at hop hn ⊢
          cases hn
          refine ⟨by simp [CacheState.set, opDone, OpPc.getting], ?_⟩
          rintro r' ⟨⟩
          cases p with
          | get flag => rfl
          | _ => simp [OpPc.getting] at hop
      | _ => simp [hpc] at hn

/-- `get` returns the contents. -/
theorem CacheInv.get (h : CacheInv s ph d) (hp : s.lock.pc a = .holding)
    (hop : (s.op a).getting = true) (hs : (ClientReq.get id).step a s x = some (s', ans)) :
    (∃ ph', CacheInv s' ph' d) ∧ s'.lock.pc a = .holding ∧ (s'.op a).getting = true ∧
      ∀ r, ans = some r → r.ret = .ok → d = some r.buf := by
  obtain ⟨rfl, hallows, es, hn, rfl⟩ := ClientReq.step_eq_some hs
  have hquiet : ∃ ph', CacheInv s' ph' d := by
    apply h.step_quiet hn
    intro buf now hx
    rw [hx] at hallows
    simp [ClientReq.allows] at hallows
  have hlock : s'.lock = s.lock := by
    apply CacheState.next_lock hn
    intro b hb
    rw [hb] at hallows
    simp [ClientReq.allows] at hallows
  obtain ⟨hgetting, hanswer⟩ := CacheState.get_answer hp hop hallows hn
  refine ⟨hquiet, by rw [hlock]; exact hp, hgetting, ?_⟩
  intro r hr hok
  -- the observer sees what was put last
  obtain ⟨-, -, heach⟩ := h.next hn
  have hlatest := heach [] (.got x.act r.buf) [] (by simp [hanswer r hr, Op.events, hok])
  simpa [Latest, latest] using hlatest

/-- `put` always succeeds. -/
theorem CacheInv.put (h : CacheInv s ph d) {buf : Bytes}
    (hs : (ClientReq.put id buf).step a s x = some (s', ans)) :
    (∃ ph', CacheInv s' ph' (some buf)) ∧ s.lock.pc a = .holding ∧ s'.lock.pc a = .holding ∧
      ans = some { ret := .ok } := by
  obtain ⟨rfl, hallows, es, hn, rfl⟩ := ClientReq.step_eq_some hs
  cases x with
  | start b op now =>
      obtain rfl : op = .put buf := by simpa [ClientReq.allows] using hallows
      have hp : s.lock.pc b = .holding := holding_of_put hn
      obtain ⟨ph', h', -⟩ := h.next hn
      have hlock : s'.lock = s.lock := CacheState.next_lock hn (by simp)
      have hes : latest d es = some buf := by
        simp only [CacheState.next, hp, Pc.site, Option.bind_eq_bind, Option.bind_some] at hn
        split at hn
        · cases hn
          rfl
        · cases hn
      rw [hes] at h'
      refine ⟨⟨ph', h'⟩, hp, by rw [hlock]; exact hp, ?_⟩
      simp [ClientReq.answer, CacheState.answer, hp, Pc.site, Op.start, Extents.put]
  | _ => simp [ClientReq.allows] at hallows

end

end Yfs.Extents
