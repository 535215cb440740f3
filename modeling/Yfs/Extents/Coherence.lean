import Yfs.Extents.System
import Yfs.Lock.Safety

/-!
# Cache coherence

The contents of an extent are with the client that has its lock cached, if the copy there is dirty,
and on the server otherwise. `Coherent` says so of one client's copy and the server's, and each
section of an operation keeps it; `CacheInv` says who else may have a copy, by the phases of the
lock. So a `get` returns what was put last, by whichever client (`get_latest_put`).
-/

namespace Yfs.Lock

open Yfs.Lib

variable {s s' : LockState} {ph : ClientId → Phase} {a b : Act} {x y : ClientId}

/-! ## Who works on the extent -/

/-- The client may have a copy of the extent that matters. -/
@[simp] def Phase.caches : Phase → Bool
  | .held .. | .cached .. | .flushing .. => true
  | _ => false

/-- The activity that may work on the extent cached by `c`. -/
@[simp] def Phase.actor (c : ClientId) : Phase → Option Act
  | .held t _ => some (c, t)
  | .flushing a => some a
  | _ => none

theorem Phase.caches_of_actor {P : Phase} (h : P.actor x = some a) : P.caches = true := by
  cases P <;> simp_all

theorem Phase.tenure_of_caches {P : Phase} (h : P.caches = true) : P.tenure = true := by
  cases P <;> simp_all

/-- A cache is worked on by the thread that holds the lock, or by an activity that gives it back and
is about to flush. -/
theorem Pc.site_eq_some {p : Pc} :
    p.site a = some x ↔ p = .holding ∧ a.1 = x ∨ p.rel a = some (x, .flushing) := by
  cases p with
  | releasing p => cases p <;> simp [Pc.site]
  | revoking h ret p =>
      cases p with
      | call => simp [Pc.site]
      | rel p => cases p <;> simp [Pc.site]
  | _ => simp [Pc.site]

theorem Inv.actor_of_site (hi : Inv s ph) (h : (s.pc a).site a = some x) :
    (ph x).actor x = some a := by
  rcases Pc.site_eq_some.mp h with ⟨hp, rfl⟩ | hrel
  · obtain ⟨r, hr⟩ := Phase.own_held (hi.links.phase_own (a := a) (o := .held) (by simp [hp]))
    rw [hr]
    rfl
  · rw [Phase.eq_of_rel ((hi.links.rel a x .flushing).mp hrel)]
    rfl

/-- At most one activity works on the extent, in at most one cache. -/
theorem Inv.site_unique (hi : Inv s ph) (ha : (s.pc a).site a = some x)
    (hb : (s.pc b).site b = some y) : a = b ∧ x = y := by
  have hx := hi.actor_of_site ha
  have hy := hi.actor_of_site hb
  have hxy : x = y := hi.server.tenure_unique (Phase.tenure_of_caches (Phase.caches_of_actor hx))
    (Phase.tenure_of_caches (Phase.caches_of_actor hy))
  subst hxy
  rw [hx] at hy
  exact ⟨Option.some.inj hy, rfl⟩

/-- How a step changes which clients may have a copy. -/
theorem Move.caches {P P' : Phase} {es : List Event} (h : Move x P P' es) :
    P'.caches = P.caches ∨ (∃ t r, P = .granted t r ∧ P' = .held t r) ∨
      ∃ a, P = .flushing a ∧ P' = .sending a := by
  cases h <;> simp

end Yfs.Lock

namespace Yfs.Extents

open Yfs.Lib Yfs.Lock
open Yfs.Rpc (Bytes)

/-! ## The sections of one client -/

/-- The contents of the extent are `d`, whether the cache or the server has them. -/
structure Coherent (n : Copies) (d : Option Bytes) : Prop where
  clean : n.Clean
  kept : ¬ n.Removed
  view : n.view = d

/-- What an operation waiting for an RPC has found. -/
def Pending.Ok (n : Copies) : Pending → Prop
  | .get _ => n.Blank
  | .getattr => True
  | .put buf => n.view = some buf
  | .remove => False

/-- What the reply says. -/
def Pending.Served (n : Copies) (r : Answer) : Pending → Prop
  | .get _ => n.Blank ∧ (r.ret = .ok → n.stored = some r.buf)
  | .getattr => True
  | .put _ => n.stored = n.view
  | .remove => False

/-- The contents after an operation. -/
@[simp] def Op.after (d : Option Bytes) : Op → Option Bytes
  | .put buf => some buf
  | _ => d

variable {e e' : Option ExtentCache} {x x' : Option Extent} {d d' : Option Bytes} {op : Op}
  {p : Pending} {r r' : Answer} {now : UInt32} {c : ExtentCache}

@[simp] theorem coherent_none : Coherent ⟨none, x⟩ d ↔ x.map Extent.name = d := by
  constructor
  · intro h
    exact h.view
  · intro h
    exact ⟨by simp [Copies.Clean], by simp [Copies.Removed], h⟩

@[simp] theorem coherent_some : Coherent ⟨some c, x⟩ d ↔
    (c.valid = true → d = some c.data) ∧ (c.dirty = true → c.valid = true) ∧
      (c.dirty = false → x.map Extent.name = d) := by
  constructor
  · rintro ⟨hclean, hkept, rfl⟩
    simp [Copies.Clean, Copies.Removed, Copies.view, Copies.stored] at *
    grind
  · rintro ⟨hvalid, hdirty, hstored⟩
    refine ⟨?_, ?_, ?_⟩
    · rintro _ ⟨⟩ hv hd
      exact (hstored hd).trans (hvalid hv)
    · rintro ⟨_, ⟨⟩, hv, hd⟩
      simp [hdirty hd] at hv
    · simp only [Copies.view, Copies.stored]
      grind

theorem Coherent.start_done (h : Coherent ⟨e, x⟩ d) (hop : op ≠ .remove)
    (hs : op.start e now = .done e' r) :
    Coherent ⟨e', x⟩ (op.after d) ∧ (op = .get → d = some r.buf) ∧
      (op = .flush → Copies.Blank ⟨e', x⟩) := by
  cases op with
  | get =>
      cases e with
      | none => cases hs
      | some c =>
          simp only [Op.start, get] at hs
          split at hs <;> cases hs
          simp_all [Op.after]
          grind
  | getattr =>
      simp only [Op.start, getattr] at hs
      split at hs <;> cases hs
      cases e <;> simp_all [Op.after, ExtentCache.new]
  | put buf =>
      cases hs
      simp [Op.after]
  | remove => exact absurd rfl hop
  | flush =>
      cases e with
      | none =>
          cases hs
          simpa [Op.after] using h
      | some c =>
          simp only [Op.start, flush] at hs
          split at hs
          · split at hs <;> cases hs
          · cases hs
            simp_all [Op.after, ExtentCache.clear]

theorem Coherent.start_call (h : Coherent ⟨e, x⟩ d) (hs : op.start e now = .call e' p) :
    Coherent ⟨e', x⟩ d ∧ p.Ok ⟨e', x⟩ ∧ p.op = op := by
  cases op with
  | get =>
      cases e with
      | none =>
          cases hs
          exact ⟨h, Copies.blank_none, rfl⟩
      | some c =>
          simp only [Op.start, get] at hs
          split at hs <;> cases hs
          simp_all [Pending.Ok]
  | getattr =>
      simp only [Op.start, getattr] at hs
      split at hs <;> cases hs
      cases e <;> simp_all [Pending.Ok, ExtentCache.new]
  | put buf => cases hs
  | remove => cases e <;> cases hs
  | flush =>
      cases e with
      | none => cases hs
      | some c =>
          simp only [Op.start, flush] at hs
          split at hs
          · split at hs <;> cases hs <;> simp_all [Pending.Ok, Copies.view]
          · cases hs

theorem Coherent.serve (h : Coherent ⟨e, x⟩ d) (hp : p.Ok ⟨e, x⟩) (hs : p.serve x now = (r, x')) :
    Coherent ⟨e, x'⟩ d ∧ p.Served ⟨e, x'⟩ r := by
  cases p with
  | get flag =>
      cases x <;> cases hs <;> cases e <;> simp_all [Pending.Ok, Pending.Served, Copies.stored]
  | getattr => cases x <;> cases hs <;> exact ⟨h, trivial⟩
  | put buf =>
      cases hs
      cases e <;> simp_all [Pending.Ok, Pending.Served, Copies.stored, Copies.view]
      grind
  | remove => cases hp

theorem Coherent.finish (h : Coherent ⟨e, x⟩ d) (hp : p.Served ⟨e, x⟩ r)
    (hs : p.finish e r now = (e', r')) :
    Coherent ⟨e', x⟩ d ∧ (p.op = .get → r'.ret = .ok → d = some r'.buf) ∧
      (p.op = .flush → Copies.Blank ⟨e', x⟩) := by
  cases p with
  | get flag =>
      simp only [Pending.finish, getReply] at hs
      split at hs <;> cases hs
      · simp_all [Pending.Served, Copies.stored, h.view.symm, hp.1.view]
      · simp_all
  | getattr =>
      simp only [Pending.finish, getattrReply] at hs
      split at hs <;> cases hs
      · cases e <;> simp_all [ExtentCache.new]
      · simp_all
  | put buf =>
      cases hs
      simp [ExtentCache.clear]
      simp_all [Pending.Served, Copies.stored, h.view.symm]
  | remove => cases hp

/-! ## The invariant -/

/-- What is known of an activity at place `pc` of the lock protocol that is at the given place of an
operation on the copies `n`. -/
def OpPc.Ok (pc : Pc) (n : Copies) : OpPc → Prop
  | .idle => True
  | .calling p => p.Ok n ∧ (pc ≠ .holding → p.op = .flush)
  | .replying p r => p.Served n r ∧ (pc ≠ .holding → p.op = .flush)
  | .flushed => n.Blank

/-- The contents of the extent are `d`, and only the client that has the lock cached may have a copy
of them. -/
structure CacheInv (s : CacheState) (ph : ClientId → Phase) (d : Option Bytes) : Prop where
  lock : Inv s.lock ph
  idle : ∀ a, (s.lock.pc a).site a = none → s.op a = .idle
  op : ∀ a c, (s.lock.pc a).site a = some c → (s.op a).Ok (s.lock.pc a) (s.copies c)
  blank : ∀ c, (ph c).caches = false → (s.copies c).Blank
  coherent : ∀ c, (ph c).caches = true → Coherent (s.copies c) d
  server : (∀ c, (ph c).caches = false) → s.server.map Extent.name = d

variable {s s' : CacheState} {ph : ClientId → Phase} {a : Act} {c : ClientId} {o : OpPc}

/-- The activity at work on the extent does a section. -/
theorem CacheInv.set (h : CacheInv s ph d) (hsite : (s.lock.pc a).site a = some c)
    (hc : Coherent ⟨e, x⟩ d') (ho : o.Ok (s.lock.pc a) ⟨e, x⟩) :
    CacheInv { s.set c e a o with server := x } ph d' := by
  have hactor := h.lock.actor_of_site hsite
  have hcaches := Phase.caches_of_actor hactor
  refine ⟨h.lock, fun b hb => ?_, fun b y hb => ?_, fun y hy => ?_, fun y hy => ?_, fun hall => ?_⟩
  · have hne : b ≠ a := by
      rintro rfl
      exact absurd (hb.symm.trans hsite) (by simp)
    simpa [CacheState.set, hne] using h.idle b hb
  · obtain ⟨rfl, rfl⟩ := h.lock.site_unique hsite hb
    simpa [CacheState.set, CacheState.copies] using ho
  · have hne : y ≠ c := by
      rintro rfl
      exact absurd (hy.symm.trans hcaches) (by simp)
    simpa [CacheState.set, CacheState.copies, Copies.Blank, hne] using h.blank y hy
  · obtain rfl : y = c := h.lock.server.tenure_unique (Phase.tenure_of_caches hy)
      (Phase.tenure_of_caches hcaches)
    simpa [CacheState.set, CacheState.copies] using hc
  · exact absurd ((hall c).symm.trans hcaches) (by simp)

theorem opDone_of_rel {p : Pc} (h : p.rel a = some (c, .flushing)) : opDone p = .flushed := by
  cases p with
  | releasing p => cases p <;> simp_all [opDone]
  | revoking h' ret p =>
      cases p with
      | call => simp at h
      | rel p => cases p <;> simp_all [opDone]
  | _ => simp at h

/-- Who stops to have a copy has just flushed. -/
theorem CacheInv.blank_of_sending (h : CacheInv s ph d) (ho : s.op a = opDone (s.lock.pc a))
    {l : LockState} {es : List Lock.Event} (hn : Lock.next s.lock a = some (l, es))
    {ph' : ClientId → Phase} (hi' : Inv l ph') {b : Act} (hc : ph c = .flushing b)
    (hc' : ph' c = .sending b) : (s.copies c).Blank ∧ s.server.map Extent.name = d := by
  have hold : (s.lock.pc b).rel b = some (c, .flushing) :=
    (h.lock.links.rel b c _).mpr (by simp [hc])
  have hnew : (l.pc b).rel b = some (c, .sending) := (hi'.links.rel b c _).mpr (by simp [hc'])
  -- only the activity that takes the step is at another place after it
  obtain rfl : b = a := by
    by_contra hb
    rw [next_pc hn hb, hold] at hnew
    cases hnew
  have hblank := h.op b c (Pc.site_eq_some.mpr (.inr hold))
  rw [ho, opDone_of_rel hold] at hblank
  exact ⟨hblank, (Copies.Blank.view hblank).symm.trans (h.coherent c (by simp [hc])).view⟩

/-- The lock protocol goes on: a client that is let in finds the contents on the server, and one
that sends the lock back has left them there. -/
theorem CacheInv.lockStep (h : CacheInv s ph d) (ho : s.op a = opDone (s.lock.pc a))
    {l : LockState} {es : List Lock.Event} (hn : Lock.next s.lock a = some (l, es)) :
    ∃ ph', CacheInv { s with lock := l, op := Function.update s.op a .idle } ph' d := by
  obtain ⟨ph', hi', hmoves⟩ := inv_next h.lock hn
  have hsame : ∀ b, b ≠ a → l.pc b = s.lock.pc b := fun b hb => next_pc hn hb
  refine ⟨ph', ?_⟩
  constructor
  case lock => exact hi'
  case idle =>
    intro b hb
    by_cases hba : b = a
    · simp [hba]
    · simp only at hb
      rw [hsame b hba] at hb
      simpa [hba] using h.idle b hb
  case op =>
    intro b y hb
    by_cases hba : b = a
    · simp [hba, OpPc.Ok]
    · simp only at hb
      rw [hsame b hba] at hb
      simpa [hba, hsame b hba, CacheState.copies] using h.op b y hb
  case blank =>
    intro y hy
    rcases (hmoves y).caches with heq | ⟨t, r, -, hy'⟩ | ⟨b, hb, hb'⟩
    · exact h.blank y (heq ▸ hy)
    · simp [hy'] at hy
    · exact (h.blank_of_sending ho hn hi' hb hb').1
  case coherent =>
    intro y hy
    rcases (hmoves y).caches with heq | ⟨t, r, hgranted, hy'⟩ | ⟨b, hb, hb'⟩
    · exact h.coherent y (heq ▸ hy)
    · -- `y` is let in: no client had a copy, so the server has the contents
      have hblank := h.blank y (by simp [hgranted])
      refine ⟨hblank.clean, hblank.not_removed, hblank.view.trans (h.server fun z => ?_)⟩
      by_contra hz
      have hz : (ph z).caches = true := by simpa using hz
      obtain rfl : z = y := h.lock.server.tenure_unique (Phase.tenure_of_caches hz)
        (by simp [hgranted])
      simp [hgranted] at hz
    · simp [hb'] at hy
  case server =>
    intro hall
    by_cases hold : ∀ z, (ph z).caches = false
    · exact h.server hold
    · -- the last client with a copy has just sent the lock back
      obtain ⟨z, hz⟩ := not_forall.mp hold
      have hz : (ph z).caches = true := by simpa using hz
      rcases (hmoves z).caches with heq | ⟨t, r, hgranted, hy'⟩ | ⟨b, hb, hb'⟩
      · exact absurd ((hall z).symm.trans (heq.trans hz)) (by simp)
      · simp [hgranted] at hz
      · exact (h.blank_of_sending ho hn hi' hb hb').2

/-! ## Every run -/

/-- The contents after the events `τ`, if they were `d` before: what was put last. -/
def latest (d : Option Bytes) (τ : List CacheEvent) : Option Bytes :=
  τ.foldl (fun d e => match e with | .put _ buf => some buf | _ => d) d

/-- A `get` returns what was put last. -/
def Latest (d : Option Bytes) (pre : List CacheEvent) : CacheEvent → Prop
  | .got _ buf => latest d pre = some buf
  | _ => True

@[simp] theorem latest_append {τ es : List CacheEvent} :
    latest d (τ ++ es) = latest (latest d τ) es := by
  simp [latest]

theorem latest_lock {es : List Lock.Event} : latest d (es.map .lock) = d := by
  induction es with
  | nil => rfl
  | cons _ _ ih => exact ih

theorem each_lock {es : List Lock.Event} : System.Each (Latest d) (es.map .lock) := by
  intro pre e post h
  have : e ∈ es.map CacheEvent.lock := by simp [h]
  obtain ⟨_, -, rfl⟩ := List.mem_map.mp this
  trivial

theorem Op.latest_events : latest d (op.events a r) = op.after d := by
  cases op with
  | get =>
      simp only [Op.events]
      split <;> rfl
  | _ => rfl

theorem Op.each_events (h : op = .get → r.ret = .ok → d = some r.buf) :
    System.Each (Latest d) (op.events a r) := by
  cases op with
  | get =>
      simp only [Op.events]
      split
      · exact System.each_singleton (h rfl ‹_›)
      · exact System.each_nil
  | put buf => exact System.each_singleton trivial
  | _ => exact System.each_nil

theorem OpPc.ok_opDone {pc : Pc} {n : Copies} (h : pc ≠ .holding → n.Blank) :
    (opDone pc).Ok pc n := by
  unfold opDone
  split
  · exact h (by simp)
  · exact h (by simp)
  · trivial

theorem CacheInv.start (h : CacheInv s ph d) {es : List CacheEvent}
    (hn : s.next (.start a op now) = some (s', es)) :
    CacheInv s' ph (latest d es) ∧ System.Each (Latest d) es := by
  simp only [CacheState.next, Option.bind_eq_bind, Option.bind_eq_some_iff] at hn
  obtain ⟨c, hsite, hn⟩ := hn
  have hcoh := h.coherent c (Phase.caches_of_actor (h.lock.actor_of_site hsite))
  split at hn
  · rename_i hallowed
    have hremove : op ≠ .remove := by
      rintro rfl
      simp [Op.allowed] at hallowed
    have hflush : s.lock.pc a ≠ .holding → op = .flush := by
      intro hp
      simpa [Op.allowed, hp] using hallowed.2
    split at hn
    · rename_i e r hs
      cases hn
      obtain ⟨hc, hgot, hblank⟩ := hcoh.start_done hremove hs
      rw [Op.latest_events]
      exact ⟨h.set hsite hc (OpPc.ok_opDone fun hp => hblank (hflush hp)),
        Op.each_events fun hop _ => hgot hop⟩
    · rename_i e p hs
      cases hn
      obtain ⟨hc, hok, hop⟩ := hcoh.start_call hs
      exact ⟨h.set hsite hc ⟨hok, fun hp => hop.trans (hflush hp)⟩, System.each_nil⟩
  · cases hn

theorem CacheInv.serve (h : CacheInv s ph d) {es : List CacheEvent}
    (hn : s.next (.serve a now) = some (s', es)) :
    CacheInv s' ph (latest d es) ∧ System.Each (Latest d) es := by
  simp only [CacheState.next] at hn
  split at hn
  · rename_i p hp
    obtain ⟨r, x', hr⟩ : ∃ r x', p.serve s.server now = (r, x') := ⟨_, _, rfl⟩
    rw [hr] at hn
    cases hn
    cases hsite : (s.lock.pc a).site a with
    | none => simp [h.idle a hsite] at hp
    | some c =>
        have hcoh := h.coherent c (Phase.caches_of_actor (h.lock.actor_of_site hsite))
        have hok := h.op a c hsite
        rw [hp] at hok
        obtain ⟨hc, hserved⟩ := hcoh.serve hok.1 hr
        have h' := h.set hsite hc (o := .replying p r) ⟨hserved, hok.2⟩
        rw [CacheState.set, Function.update_eq_self] at h'
        exact ⟨h', System.each_nil⟩
  · cases hn

theorem CacheInv.finish (h : CacheInv s ph d) {es : List CacheEvent}
    (hn : s.next (.finish a now) = some (s', es)) :
    CacheInv s' ph (latest d es) ∧ System.Each (Latest d) es := by
  simp only [CacheState.next, Option.bind_eq_bind, Option.bind_eq_some_iff] at hn
  obtain ⟨c, hsite, hn⟩ := hn
  have hcoh := h.coherent c (Phase.caches_of_actor (h.lock.actor_of_site hsite))
  have hok := h.op a c hsite
  split at hn
  · rename_i p r hp
    rw [hp] at hok
    cases hn
    obtain ⟨hc, hgot, hblank⟩ := hcoh.finish hok.1 (rfl : p.finish (s.cache c) r now = _)
    have hafter : p.op.after d = d := by cases p <;> rfl
    rw [Op.latest_events, hafter]
    exact ⟨h.set hsite hc (OpPc.ok_opDone fun hp => hblank (hok.2 hp)), Op.each_events hgot⟩
  · cases hn

theorem CacheInv.next (h : CacheInv s ph d) {act : CacheAction} {es : List CacheEvent}
    (hn : s.next act = some (s', es)) :
    ∃ ph', CacheInv s' ph' (latest d es) ∧ System.Each (Latest d) es := by
  cases act with
  | lock a =>
      simp only [CacheState.next] at hn
      split at hn
      · simp only [Option.bind_eq_bind, Option.bind_eq_some_iff] at hn
        obtain ⟨⟨l, les⟩, hl, hn⟩ := hn
        cases hn
        obtain ⟨ph', h'⟩ := h.lockStep ‹_› hl
        rw [latest_lock]
        exact ⟨ph', h', each_lock⟩
      · cases hn
  | start a op now => exact ⟨ph, h.start hn⟩
  | serve a now => exact ⟨ph, h.serve hn⟩
  | finish a now => exact ⟨ph, h.finish hn⟩

theorem cacheInv_run {τ : List CacheEvent} (hrun : (cacheSystem x).Run τ s) :
    (∃ ph, CacheInv s ph (latest (x.map Extent.name) τ)) ∧
      System.Each (Latest (x.map Extent.name)) τ := by
  induction hrun with
  | start hs =>
      cases hs
      refine ⟨⟨_, inv_initial, fun _ _ => rfl, fun _ _ h => ?_, fun _ _ => Copies.blank_none,
        fun _ h => by simp at h, fun _ => rfl⟩, System.each_nil⟩
      simp [LockState.initial, Pc.site] at h
  | step _ hn ih =>
      obtain ⟨⟨ph, h⟩, heach⟩ := ih
      obtain ⟨ph', h', hes⟩ := h.next hn
      refine ⟨⟨ph', by simpa using h'⟩, heach.append fun pre e post heq => ?_⟩
      have := hes pre e post heq
      cases e <;> simp_all [Latest]

/-- Every `get` that returns OK returns the data that was put last, by whichever client, or that was
on the server before the run if nothing was put. -/
theorem get_latest_put (x : ExtentId → Option Extent) {τ : List (ExtentId × CacheEvent)}
    {w : ExtentId → CacheState} (hrun : (cacheWorld x).Run τ w) (eid : ExtentId)
    {pre post : List CacheEvent} {a : Act} {buf : Bytes}
    (hτ : System.proj eid τ = pre ++ .got a buf :: post) :
    latest ((x eid).map Extent.name) pre = some buf :=
  (cacheInv_run (hrun.proj eid)).2 pre _ post hτ

/-- Client `c1` puts, and `c2`, which wants the lock, gets what `c1` has put. -/
theorem get_latest_put_other_client :
    ∃ τ w pre, (cacheWorld fun _ => none).Run τ w ∧
      System.proj 7 τ = pre ++ [.got ("c2", 0) [104, 105]] ∧ latest none pre = some [104, 105] := by
  let c1 : Act := ("c1", 0)
  let c2 : Act := ("c2", 0)
  let acts : List CacheAction := [.lock c1, .lock c1, .lock c1, .start c1 (.put [104, 105]) 9,
    .lock c2, .lock c2, .lock c2, .lock c2, .lock c1, .start c1 .flush 9, .serve c1 9, .finish c1 9,
    .lock c1, .lock c1, .lock c1, .lock c1, .lock c2, .lock c2, .lock c2,
    .start c2 .get 9, .serve c2 9, .finish c2 9]
  obtain ⟨τ, w, hrun, hlast⟩ := System.exists_run (S := cacheWorld fun _ => none)
    (s := fun _ => { lock := .initial, cache := fun _ => none, server := none, op := fun _ => .idle })
    (p := fun τ _ => (System.proj 7 τ).getLast? = some (.got c2 [104, 105]))
    (acts.map fun act => (7, act)) (fun _ => rfl) (by decide +kernel)
  obtain ⟨pre, hpre⟩ := List.getLast?_eq_some_iff.mp hlast
  exact ⟨τ, w, pre, hrun, hpre, get_latest_put _ hrun 7 hpre⟩

end Yfs.Extents
