import Yfs.Extents.Requests

/-!
# What the requests answer

Under its lock, `get` returns the contents of the extent if it has any, and NOENT otherwise: the
extent server is asked only when nothing is cached, and what it has answered is still so when the
answer arrives. `put` leaves the thread where it may call the next operation, and `release` has given
the lock up before it returns.
-/

namespace Yfs.Lock

/-- A thread that has called `release` is inside it or has returned. -/
theorem next_release {s s' : LockState} {a : Act} {es : List Event}
    (hp : s.pc a = .holding ∨ ∃ q, s.pc a = .releasing q) (h : next s a = some (s', es)) :
    s'.pc a = .idle ∨ ∃ q, s'.pc a = .releasing q := by
  unfold next at h
  rcases hp with hp | ⟨q, hp⟩
  · rw [hp] at h
    dsimp only at h
    split at h
    · cases h
      exact .inl (Function.update_self ..)
    · cases h
      simp only [LockState.setPc, Function.update_self]
      split
      · exact .inr ⟨_, rfl⟩
      · exact .inl rfl
  · rw [hp] at h
    simp only [Option.bind_eq_bind, Option.bind_eq_some_iff] at h
    obtain ⟨⟨t, p, es'⟩, -, h⟩ := h
    cases h
    simp only [LockState.setPc, Function.update_self]
    cases p with
    | none => exact .inl rfl
    | some p => exact .inr ⟨p, rfl⟩

end Yfs.Lock

namespace Yfs.Extents

open Yfs.Lib Yfs.Lock
open Yfs.Rpc (Bytes)

/-- What `get` returns for an extent with the contents `d`. -/
def contents : Option Bytes → Status × Bytes
  | some buf => (.ok, buf)
  | none => (.noent, [])

/-- An answer to `get` on its way back is OK, or the server has no such extent. -/
def Answered (s : CacheState) : Prop :=
  ∀ a flag r, s.op a = .replying (.get flag) r → r.ret = .ok ∨ r.ret = .noent ∧ s.server = none

variable {s s' : CacheState} {x : CacheAction} {a : Act} {d : Option Bytes} {ph : ClientId → Phase}
  {es : List CacheEvent} {id : ExtentId}

/-- A step that changes one place, to one where no answer to `get` is on its way. -/
theorem Answered.of_op {o : OpPc} (h : Answered s) (hserver : s'.server = s.server)
    (hop : s'.op = Function.update s.op a o) (ho : ∀ flag r, o ≠ .replying (.get flag) r) :
    Answered s' := by
  intro b flag r hb
  rw [hop] at hb
  rw [hserver]
  by_cases hba : b = a
  · rw [hba, Function.update_self] at hb
    exact absurd hb (ho flag r)
  · rw [Function.update_of_ne hba] at hb
    exact h b flag r hb

theorem opDone_ne {pc : Pc} (flag : Bool) (r : Answer) : opDone pc ≠ .replying (.get flag) r := by
  unfold opDone
  split <;> simp

theorem answered_serve {now : UInt32} (hc : CacheInv s ph d)
    (hn : s.next (.serve a now) = some (s', es)) : Answered s' := by
  simp only [CacheState.next] at hn
  split at hn
  · rename_i p hp
    cases hn
    intro b flag r hb
    by_cases hba : b = a
    · -- the answer of the server
      simp only [hba, Function.update_self, OpPc.replying.injEq] at hb
      obtain ⟨rfl, rfl⟩ := hb
      cases hx : s.server with
      | none => exact .inr ⟨rfl, rfl⟩
      | some e => exact .inl rfl
    · -- nobody else is at work on the extent
      simp only [Function.update_of_ne hba] at hb
      have hsite : ∀ b, s.op b ≠ .idle → ∃ c, (s.lock.pc b).site b = some c := fun b hb =>
        Option.ne_none_iff_exists'.mp fun hnone => hb (hc.idle b hnone)
      obtain ⟨c, hcb⟩ := hsite b (by simp [hb])
      obtain ⟨c', hca⟩ := hsite a (by simp [hp])
      exact absurd (hc.lock.site_unique hcb hca).1 hba
  · cases hn

theorem Answered.next (h : Answered s) (hc : CacheInv s ph d) (hn : s.next x = some (s', es)) :
    Answered s' := by
  cases x with
  | lock a =>
      simp only [CacheState.next] at hn
      split at hn
      · simp only [Option.bind_eq_bind, Option.bind_eq_some_iff] at hn
        obtain ⟨⟨l, les⟩, -, hn⟩ := hn
        cases hn
        exact h.of_op rfl rfl (by simp)
      · cases hn
  | start a op now =>
      simp only [CacheState.next, Option.bind_eq_bind, Option.bind_eq_some_iff] at hn
      obtain ⟨c, -, hn⟩ := hn
      split at hn
      · split at hn <;> cases hn
        · exact h.of_op rfl rfl opDone_ne
        · exact h.of_op rfl rfl (by simp)
      · cases hn
  | serve a now => exact answered_serve hc hn
  | finish a now =>
      simp only [CacheState.next, Option.bind_eq_bind, Option.bind_eq_some_iff] at hn
      obtain ⟨c, -, hn⟩ := hn
      split at hn
      · cases hn
        exact h.of_op rfl rfl opDone_ne
      · cases hn

/-- `get` returns the contents, or that there are none. -/
theorem CacheInv.get_contents {r : Answer} (h : CacheInv s ph d) (ha : Answered s)
    (hp : s.lock.pc a = .holding) (hop : (s.op a).getting = true)
    (hs : (ClientReq.get id).step a s x = some (s', some r)) : (r.ret, r.buf) = contents d := by
  obtain ⟨-, -, -, hok⟩ := h.get hp hop hs
  have hget : r.ret = .ok → (r.ret, r.buf) = contents d := by
    intro hr
    rw [hok r rfl hr, hr]
    rfl
  obtain ⟨rfl, hallows, es, hn, hans⟩ := ClientReq.step_eq_some hs
  have hans : s.answer x = some r := hans
  cases x with
  | lock b => cases hans
  | serve b now => cases hans
  | start b op now =>
      obtain rfl : op = .get := by simpa [ClientReq.allows] using hallows
      simp only [CacheAction.act] at hp
      simp only [CacheState.answer, hp, Pc.site, Option.bind_eq_bind, Option.bind_some] at hans
      apply hget
      cases hc : s.cache b.1 with
      | none => simp [hc, Op.start, Extents.get] at hans
      | some c =>
          by_cases hblank : (!c.valid && !c.dirty) = true
          · simp [hc, Op.start, Extents.get, hblank] at hans
          · simp only [hc, Op.start, Extents.get, hblank] at hans
            cases hans
            rfl
  | finish b now =>
      simp only [CacheAction.act] at hp hop
      simp only [CacheState.answer, hp, Pc.site, Option.bind_eq_bind, Option.bind_some] at hans
      cases hpc : s.op b with
      | replying p r' =>
          simp only [hpc, Option.pure_def, Option.some.injEq] at hans hop
          cases p with
          | get flag =>
              by_cases hr : r'.ret = .ok
              · apply hget
                rw [← hans]
                simp [Pending.finish, getReply, hr]
              · -- the server has nothing, and nothing is cached
                obtain ⟨hnoent, hserver⟩ := (ha b flag r' hpc).resolve_left hr
                have hsite : (s.lock.pc b).site b = some b.1 := by
                  rw [hp]
                  rfl
                have hserved := h.op b b.1 hsite
                rw [hpc] at hserved
                have hcoh := h.coherent b.1 (Phase.caches_of_actor (h.lock.actor_of_site hsite))
                have hd : d = none := by
                  rw [← hcoh.view, hserved.1.1.view]
                  simp [Copies.stored, CacheState.copies, hserver]
                rw [← hans, hd]
                simp [Pending.finish, getReply, hnoent, contents]
          | _ => simp [OpPc.getting] at hop
      | _ => simp [hpc] at hans

/-! ## `put` and `release` -/

/-- `put` has returned. -/
theorem put_getting {buf : Bytes} {ans : Option Answer}
    (hs : (ClientReq.put id buf).step a s x = some (s', ans)) :
    (s'.op a).getting = true := by
  obtain ⟨rfl, hallows, es, hn, rfl⟩ := ClientReq.step_eq_some hs
  cases x with
  | start b op now =>
      obtain rfl : op = .put buf := by simpa [ClientReq.allows] using hallows
      have hp : s.lock.pc b = .holding := holding_of_put hn
      simp only [CacheState.next, hp, Pc.site, Option.bind_eq_bind, Option.bind_some] at hn
      split at hn
      · cases hn
        simp [CacheState.set, CacheAction.act, opDone, OpPc.getting]
      · cases hn
  | _ => simp [ClientReq.allows] at hallows

/-- A thread in `release` has given the lock up with its first step. -/
theorem release_step {ans : Option Answer}
    (hp : s.lock.pc a = .holding ∨ ∃ q, s.lock.pc a = .releasing q)
    (hs : (ClientReq.release id).step a s x = some (s', ans)) :
    ans.isSome = true ∧ s'.lock.pc a = .idle ∨ ans = none ∧ ∃ q, s'.lock.pc a = .releasing q := by
  obtain ⟨rfl, hallows, es, hn, rfl⟩ := ClientReq.step_eq_some hs
  have hpc : s'.lock.pc x.act = .idle ∨ ∃ q, s'.lock.pc x.act = .releasing q := by
    rcases CacheState.next_cases hn with ⟨l, les, -, hlock, rfl, -⟩ | ⟨hx, hlock, -⟩
    · exact next_release hp hlock
    · -- only the flush is left
      rw [hlock]
      refine .inr (hp.resolve_left fun hold => ?_)
      rw [hold] at hallows
      cases x with
      | lock b => exact hx b rfl
      | _ => simp [ClientReq.allows] at hallows
  rcases hpc with hpc | ⟨q, hpc⟩
  · exact .inl ⟨by simp [ClientReq.answer, hpc], hpc⟩
  · exact .inr ⟨by simp [ClientReq.answer, hpc], q, hpc⟩

end Yfs.Extents
