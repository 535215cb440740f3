import Yfs.Lock.Phase

/-!
# Every step of the protocol is a move of the cycle

`inv_next`: from a state tied to phases by `Inv`, each step of a thread leads to a state tied to
phases again, and the phases make a `Move`. The proof goes place by place. In each place the links
name the phase of the client concerned, `EntryOk` then gives its record and `ServerOk` the server's,
so the section that runs is determined, and so are the new phases.
-/

namespace Yfs.Lock

open Yfs.Lib Function

variable {s : LockState} {ph ph' : ClientId → Phase} {a : Act} {c : ClientId}
  {clients : ClientId → Option ClientCacheLock} {pc : Act → Pc}

/-! ## Frame lemmas -/

/-- A phase change that `f` does not see. -/
theorem update_same {β : Type} {f : ClientId → Phase → β} {P : Phase} (h : f c P = f c (ph c)) :
    ∀ x, f x (update ph c P x) = f x (ph x) := by
  intro x
  by_cases hx : x = c
  · subst hx
    simpa using h
  · simp [hx]

theorem update_other {β : Type} {f : ClientId → Phase → β} {P : Phase} :
    ∀ x, x ≠ c → f x (update ph c P x) = f x (ph x) := by
  intro x hx
  simp [hx]

/-- What a step that takes thread `a` from place `p` to `p'` and client `x` from phase `P` to `P'`
may do to a link: leave it alone, or change it between `a` and `x`. -/
def LinkStep {O : Type} (F : Act → Pc → Option (ClientId × O))
    (K : ClientId → Phase → Option (Act × O)) (a : Act) (p p' : Pc) (x : ClientId)
    (P P' : Phase) : Prop :=
  (F a p' = F a p ∧ K x P' = K x P) ∨
  (((F a p = none ∧ K x P = none) ∨ ∃ o, F a p = some (x, o)) ∧
    ((F a p' = none ∧ K x P' = none) ∨ ∃ o, F a p' = some (x, o) ∧ K x P' = some (a, o)))

theorem LinkStep.linked {O : Type} {F : Act → Pc → Option (ClientId × O)}
    {K : ClientId → Phase → Option (Act × O)} {p : Pc} {P : Phase}
    (h : Linked (fun b => F b (pc b)) (fun c => K c (ph c)))
    (hs : LinkStep F K a (pc a) p c (ph c) P) :
    Linked (fun b => F b (update pc a p b)) (fun x => K x (update ph c P x)) := by
  rcases hs with ⟨hF, hK⟩ | ⟨hold, hnew⟩
  · refine h.congr (fun b => ?_) (update_same hK)
    by_cases hb : b = a
    · subst hb
      simpa using hF
    · simp [hb]
  · refine h.frame a c (fun b hb => by simp [hb]) update_other hold ?_
    simpa using hnew

/-- The four links under a step of thread `a` to place `p` and client `c` to phase `P`. -/
structure LinkSteps (a : Act) (p p' : Pc) (c : ClientId) (P P' : Phase) : Prop where
  own : LinkStep (fun b q => q.own b) (fun x Q => Q.own x) a p p' c P P'
  rel : LinkStep (fun b q => q.rel b) (fun _ Q => Q.rel) a p p' c P P'
  rev : LinkStep (fun _ q => q.rev) (fun _ Q => Q.rev) a p p' c P P'
  ret : LinkStep (fun _ q => q.ret) (fun _ Q => Q.ret) a p p' c P P'

/-- Thread `a` moves to `p`, client `c` to phase `P` and record `e`. -/
theorem Links.moveEntry {p : Pc} {P : Phase} {e : Option ClientCacheLock}
    (h : Links clients pc ph) (hs : LinkSteps a (pc a) p c (ph c) P) (he : EntryOk P e) :
    Links (update clients c e) (update pc a p) (update ph c P) where
  own := hs.own.linked h.own
  rel := hs.rel.linked h.rel
  rev := hs.rev.linked h.rev
  ret := hs.ret.linked h.ret
  entry x := by
    by_cases hx : x = c
    · subst hx
      simpa using he
    · simpa [hx] using h.entry x

/-- Thread `a` moves to `p` and client `c` to phase `P`, with the record it had. -/
theorem Links.move {p : Pc} {P : Phase} (h : Links clients pc ph)
    (hs : LinkSteps a (pc a) p c (ph c) P) (he : EntryOk P (clients c)) :
    Links clients (update pc a p) (update ph c P) := by
  simpa using h.moveEntry hs he

/-- Thread `a` moves to `p` without any client changing its phase. -/
theorem Links.movePc {p : Pc} (h : Links clients pc ph)
    (h₁ : p.own a = (pc a).own a) (h₂ : p.rel a = (pc a).rel a) (h₃ : p.rev = (pc a).rev)
    (h₄ : p.ret = (pc a).ret) : Links clients (update pc a p) ph := by
  have := h.move (a := a) (c := a.1) (p := p) (P := ph a.1)
    ⟨.inl ⟨h₁, rfl⟩, .inl ⟨h₂, rfl⟩, .inl ⟨h₃, rfl⟩, .inl ⟨h₄, rfl⟩⟩ (h.entry a.1)
  simpa using this

/-- Phase changes the server does not see. -/
theorem ServerOk.of_same {l : CacheLock} (h : ServerOk ph l)
    (hq : ∀ c, (ph' c).queued = (ph c).queued) (ht : ∀ c, (ph' c).tenure = (ph c).tenure)
    (hr : ∀ c, (ph' c).revoked = (ph c).revoked) (hc : ∀ c, (ph' c).called = (ph c).called) :
    ServerOk ph' l := by
  refine ⟨fun c => by rw [hq, h.queue], ?_⟩
  have hs := h.state
  unfold StateOk at hs ⊢
  simpa only [ht, hr, hc] using hs

/-- What the server's record says about a client. -/
def Phase.seen (P : Phase) : Bool × Bool × Bool × Bool := (P.queued, P.tenure, P.revoked, P.called)

theorem ServerOk.update {l : CacheLock} {P : Phase} (h : ServerOk ph l)
    (hseen : P.seen = (ph c).seen) : ServerOk (update ph c P) l := by
  simp only [Phase.seen, Prod.mk.injEq] at hseen
  obtain ⟨hq, ht, hr, hc⟩ := hseen
  exact h.of_same (update_same (f := fun _ => Phase.queued) hq)
    (update_same (f := fun _ => Phase.tenure) ht) (update_same (f := fun _ => Phase.revoked) hr)
    (update_same (f := fun _ => Phase.called) hc)

theorem Moves.stay : Moves ph ph [] := fun _ => .stay

theorem Move.client {P P' : Phase} {es : List Event} (hm : Move c P P' es) :
    ∀ e ∈ es, e.client = c := by
  cases hm <;> simp [Event.client]

/-- Only client `c` moves. -/
theorem Moves.update {P : Phase} {es : List Event} (hm : Move c (ph c) P es) :
    Moves ph (update ph c P) es := by
  intro x
  by_cases hx : x = c
  · subst hx
    have : eventsOf x es = es := List.filter_eq_self.mpr (by simpa using hm.client)
    simpa [this] using hm
  · have : eventsOf x es = [] := by
      refine List.filter_eq_nil_iff.mpr fun e he => ?_
      simpa [hm.client e he] using fun h : c = x => hx h.symm
    simpa [this, hx] using Move.stay

/-- A move of client `c` that the server does not see: thread `a` goes to place `p`, `c` to phase
`P`, and its record becomes `l`. -/
theorem Inv.moveEntry {p : Pc} {P : Phase} {l : ClientCacheLock} {es : List Event} (hi : Inv s ph)
    (hls : LinkSteps a (s.pc a) p c (ph c) P) (he : EntryOk P (some l))
    (hseen : P.seen = (ph c).seen) (hm : Move c (ph c) P es) :
    ∃ ph', Inv ((s.setClient c l).setPc a p) ph' ∧ Moves ph ph' es :=
  ⟨update ph c P, ⟨hi.links.moveEntry hls he, hi.server.update hseen⟩, Moves.update hm⟩

/-! ## Reading the phase off a place -/

/-- The own link at a thread with a part in its client's lock. -/
theorem Links.phase_own (h : Links clients pc ph) {o : Own} (hp : (pc a).own a = some (a.1, o)) :
    (ph a.1).own a.1 = some (a, o) := (h.own a a.1 o).mp hp

theorem Phase.own_requesting {P : Phase} (h : P.own a.1 = some (a, .requesting)) :
    ∃ b, P = .requesting a.2 b := by
  cases P <;> simp_all [Prod.ext_iff]

theorem Phase.own_denied {P : Phase} (h : P.own a.1 = some (a, .denied)) :
    ∃ r, P = .denied a.2 r := by
  cases P <;> simp_all [Prod.ext_iff]

theorem Phase.own_granted {P : Phase} (h : P.own a.1 = some (a, .granted)) :
    ∃ r, P = .granted a.2 r := by
  cases P <;> simp_all [Prod.ext_iff]

theorem Phase.own_held {P : Phase} (h : P.own a.1 = some (a, .held)) :
    ∃ r, P = .held a.2 r := by
  cases P <;> simp_all [Prod.ext_iff]

/-- The phase of a client whose lock activity `a` gives back. -/
def Rel.phase (a : Act) : Rel → Phase
  | .flushing => .flushing a
  | .sending => .sending a
  | .settling => .settling a

theorem Phase.eq_of_rel {P : Phase} {o : Rel} (h : P.rel = some (a, o)) : P = o.phase a := by
  cases P with
  | flushing | sending | settling =>
      cases h
      rfl
  | _ => cases h

theorem Phase.eq_of_ret {P : Phase} (h : P.ret = some (a, ())) : ∃ t, P = .denied t (.msg a) := by
  cases P with
  | denied t r =>
      cases r with
      | msg b =>
          cases h
          exact ⟨t, rfl⟩
      | _ => cases h
  | _ => cases h

theorem EntryOk.state_none {p : Phase} {e : Option ClientCacheLock} (h : EntryOk p e)
    (hs : (e.getD .new).state = .none) :
    p = .idle ∧ (e.getD .new).revoke = 0 ∧ (e.getD .new).retry = false := by
  cases p with
  | idle =>
      cases e with
      | none => simp [ClientCacheLock.new]
      | some l => simpa using (h l rfl).2
  | _ => simp only [EntryOk] at h; grind

theorem EntryOk.state_free {p : Phase} {e : Option ClientCacheLock} (h : EntryOk p e)
    (hs : (e.getD .new).state = .free) :
    ∃ r, p = .cached r ∧ (e.getD .new).revoke = 0 ∧ (e.getD .new).retry = false ∧
      r ≠ .counted ∧ r ≠ .marked := by
  cases p with
  | cached r => simp only [EntryOk] at h; grind
  | idle =>
      cases e with
      | none => simp [ClientCacheLock.new] at hs
      | some l => simp_all [EntryOk]
  | _ => simp only [EntryOk] at h; grind

/-! ## The places of `acquire` before its RPC -/

/-- A place where a thread has no part in the protocol. -/
def Pc.Aside (p : Pc) : Prop := p = .idle ∨ p = .waiting ∨ p = .waitingRelease

theorem Pc.Aside.roles {p : Pc} (h : p.Aside) :
    p.own a = none ∧ p.rel a = none ∧ p.rev = none ∧ p.ret = none := by
  rcases h with rfl | rfl | rfl <;> exact ⟨rfl, rfl, rfl, rfl⟩

/-- A thread goes on waiting. -/
theorem inv_wait {l : ClientCacheLock} {p : Pc} (hi : Inv s ph) (ha : (s.pc a).Aside)
    (hl : s.clients a.1 = some l) (hp : p.Aside) :
    Inv ((s.setClient a.1 l).setPc a p) ph := by
  obtain ⟨h₁, h₂, h₃, h₄⟩ := ha.roles (a := a)
  obtain ⟨g₁, g₂, g₃, g₄⟩ := hp.roles (a := a)
  have hcl : update s.clients a.1 (some l) = s.clients := by simp [← hl]
  refine ⟨?_, hi.server⟩
  simpa [LockState.setClient, LockState.setPc, hcl] using
    hi.links.movePc (a := a) (p := p) (g₁.trans h₁.symm) (g₂.trans h₂.symm) (g₃.trans h₃.symm)
      (g₄.trans h₄.symm)

/-- A thread without a part goes through the `switch` of `acquire`. -/
theorem inv_switch (hi : Inv s ph) (ha : (s.pc a).Aside) :
    let r := leaveAcquire s a (((s.clients a.1).getD .new).acquire a.2)
    ∃ ph', Inv r.1 ph' ∧ Moves ph ph' r.2 := by
  have he := hi.links.entry a.1
  generalize hl : (s.clients a.1).getD .new = l at *
  -- only a record that was there before can be in another state than NONE
  have hsome : l.state ≠ .none → s.clients a.1 = some l := by
    intro hne
    cases hc : s.clients a.1 with
    | none => simp [hc] at hl; subst hl; exact absurd rfl hne
    | some l' => simpa [hc] using hl
  cases hs : l.state with
  | none =>
      obtain ⟨hidle, hrev, hret⟩ := he.state_none (by rw [hl, hs])
      rw [hl] at hrev hret
      simp only [ClientCacheLock.acquire, leaveAcquire, hs]
      have hls : LinkSteps a (s.pc a) .acquireCall a.1 (ph a.1) (.requesting a.2 false) := by
        rcases ha with hp | hp | hp <;> constructor <;> simp [LinkStep, hidle, hp]
      exact hi.moveEntry hls (by simp [EntryOk, hrev, hret]) (by rw [hidle]; rfl)
        (hidle ▸ .request)
  | free =>
      obtain ⟨r, hcached, hrev, hret, hr₁, hr₂⟩ := he.state_free (by rw [hl, hs])
      rw [hl] at hrev hret
      simp only [ClientCacheLock.acquire, leaveAcquire, hs]
      have hls : LinkSteps a (s.pc a) .holding a.1 (ph a.1) (.held a.2 r) := by
        rcases ha with hp | hp | hp <;> constructor <;> cases r <;> simp [LinkStep, hcached, hp]
      exact hi.moveEntry hls (by simp [EntryOk, hrev, hret, hr₁, hr₂]) (by rw [hcached]; rfl)
        (hcached ▸ .hit)
  | acquiring | locked =>
      simp only [ClientCacheLock.acquire, leaveAcquire, hs]
      exact ⟨ph, inv_wait hi ha (hsome (by simp [hs])) (.inr (.inl rfl)), Moves.stay⟩
  | releasing =>
      simp only [ClientCacheLock.acquire, leaveAcquire, hs]
      exact ⟨ph, inv_wait hi ha (hsome (by simp [hs])) (.inr (.inr rfl)), Moves.stay⟩

/-! ## The answer of the acquire RPC -/

/-- A denied thread looks at the retry flag. -/
theorem inv_wakeRetry {l : ClientCacheLock} {r : Ret} (hi : Inv s ph)
    (hp : s.pc a = .waitingRetry ∨ ∃ ret, ret ≠ .ok ∧ s.pc a = .acquireReply ret)
    (hph : ph a.1 = .denied a.2 r) (hl : s.clients a.1 = some l) :
    let r := leaveAcquire s a l.wakeRetry
    ∃ ph', Inv r.1 ph' ∧ Moves ph ph' r.2 := by
  have he := hi.links.entry a.1
  simp only [hph, hl, EntryOk, Option.some.injEq, exists_eq_left'] at he
  obtain ⟨hstate, hrev, hret⟩ := he
  simp only [leaveAcquire, ClientCacheLock.wakeRetry]
  by_cases hf : l.retry
  · simp only [hf, if_true]
    have hr : r = .flagged := by simpa [hf] using hret
    subst hr
    have hls : LinkSteps a (s.pc a) .acquireCall a.1 (ph a.1) (.requesting a.2 true) := by
      rcases hp with hp | ⟨ret, hne, hp⟩ <;> constructor <;> simp_all [LinkStep]
    exact hi.moveEntry hls (by simp [EntryOk, hstate, hrev]) (by rw [hph]; rfl) (hph ▸ .again)
  · simp only [hf, Bool.false_eq_true, if_false]
    have hcl : update s.clients a.1 (some l) = s.clients := by simp [← hl]
    refine ⟨ph, ⟨?_, hi.server⟩, Moves.stay⟩
    simp only [LockState.setClient, LockState.setPc, hcl]
    refine hi.links.movePc ?_ ?_ ?_ ?_ <;>
      rcases hp with hp | ⟨ret, hne, hp⟩ <;> simp_all [AcquireNext.pc]

theorem inv_acquireReply {l : ClientCacheLock} {ret : Status} (hi : Inv s ph)
    (hp : s.pc a = .acquireReply ret) (hl : s.clients a.1 = some l) :
    let r := leaveAcquire s a (l.acquired a.2 ret)
    ∃ ph', Inv r.1 ph' ∧ Moves ph ph' r.2 := by
  by_cases hret : ret = .ok
  · subst hret
    obtain ⟨r, hph⟩ := Phase.own_granted (hi.links.phase_own (a := a) (by simp [hp]))
    have he := hi.links.entry a.1
    simp only [hph, hl, EntryOk, Option.some.injEq, exists_eq_left'] at he
    obtain ⟨hstate, hrev, hflag, hr⟩ := he
    simp only [ClientCacheLock.acquired, if_true, leaveAcquire]
    have hls : LinkSteps a (s.pc a) .holding a.1 (ph a.1) (.held a.2 r) := by
      constructor <;> cases r <;> simp [LinkStep, hph, hp]
    exact hi.moveEntry hls (by simp [EntryOk, hrev, hflag, hr]) (by rw [hph]; rfl) (hph ▸ .enter)
  · obtain ⟨r, hph⟩ := Phase.own_denied (hi.links.phase_own (a := a) (by simp [hp, hret]))
    simpa only [ClientCacheLock.acquired, hret, if_false] using
      inv_wakeRetry hi (.inr ⟨ret, hret, hp⟩) hph hl

/-! ## `release` -/

theorem inv_release {l : ClientCacheLock} (hi : Inv s ph) (hp : s.pc a = .holding)
    (hl : s.clients a.1 = some l) :
    ∃ ph', Inv ((s.setClient a.1 l.release.1).setPc a
        (if l.release.2 then .releasing .flush else .idle)) ph' ∧
      Moves ph ph' [.released a.1 a.2] := by
  obtain ⟨r, hph⟩ := Phase.own_held (hi.links.phase_own (a := a) (by simp [hp]))
  have he := hi.links.entry a.1
  simp only [hph, hl, EntryOk, Option.some.injEq, exists_eq_left'] at he
  obtain ⟨hstate, hrev, hflag⟩ := he
  by_cases hr : r = .counted ∨ r = .marked
  · -- a revoke has come: the counter or the state says so
    have hrel : l.release.2 = true ∧ EntryOk (.flushing a) (some l.release.1) := by
      rcases hr with rfl | rfl <;> simp_all [ClientCacheLock.release, EntryOk]
    have hls : LinkSteps a (s.pc a) (.releasing .flush) a.1 (ph a.1) (.flushing a) := by
      rcases hr with rfl | rfl <;> constructor <;> simp [LinkStep, hph, hp]
    rw [if_pos hrel.1]
    have hseen : (Phase.flushing a).seen = (ph a.1).seen := by
      rcases hr with rfl | rfl <;> simp [hph, Phase.seen]
    exact hi.moveEntry hls hrel.2 hseen (hph ▸ .giveUp hr)
  · rw [not_or] at hr
    have hrel : l.release.2 = false ∧ EntryOk (.cached r) (some l.release.1) := by
      simp_all [ClientCacheLock.release, EntryOk]
    have hls : LinkSteps a (s.pc a) .idle a.1 (ph a.1) (.cached r) := by
      constructor <;> cases r <;> simp [LinkStep, hph, hp]
    rw [if_neg (by simp [hrel.1])]
    exact hi.moveEntry hls hrel.2 (by rw [hph]; rfl) (hph ▸ .leave hr.1 hr.2)

/-! ## Delivery of a revoke -/

theorem Phase.rev_msg {P : Phase} (h : P.rev = some (a, ())) :
    (∃ t, P = .granted t (.msg a)) ∨ (∃ t, P = .held t (.msg a)) ∨ P = .cached (.msg a) := by
  cases P with
  | granted t r => cases r <;> simp_all
  | held t r => cases r <;> simp_all
  | cached r => cases r <;> simp_all
  | _ => simp at h

theorem inv_revoke {h : ClientId} {ret : Status} (hi : Inv s ph)
    (hp : s.pc a = .revoking h ret .call) :
    ∃ l, s.clients h = some l ∧ ∃ ph', Inv ((s.setClient h l.revokeHandler.1).setPc a
        (if l.revokeHandler.2 then .revoking h ret (.rel .flush) else .acquireReply ret)) ph' ∧
      Moves ph ph' [.revoked h] := by
  have he := hi.links.entry h
  have hrev : (ph h).rev = some (a, ()) := (hi.links.rev a h ()).mp (by simp [hp])
  rcases Phase.rev_msg hrev with ⟨t, hph⟩ | ⟨t, hph⟩ | hph
  · -- before the acquire reply: count it
    simp only [hph, EntryOk] at he
    obtain ⟨l, hl, hstate, hcount, hflag, _⟩ := he
    have hls : LinkSteps a (s.pc a) (.acquireReply ret) h (ph h) (.granted t .counted) := by
      constructor <;> simp [LinkStep, hph, hp]
    refine ⟨l, hl, ?_⟩
    simp only [ClientCacheLock.revokeHandler, hstate]
    exact hi.moveEntry hls (by simp_all [EntryOk]) (by rw [hph]; rfl) (hph ▸ .count)
  · -- a thread holds the lock: its release will give it back
    simp only [hph, EntryOk] at he
    obtain ⟨l, hl, hstate, hcount, hflag⟩ := he
    rw [if_neg (by simp)] at hstate
    have hls : LinkSteps a (s.pc a) (.acquireReply ret) h (ph h) (.held t .marked) := by
      constructor <;> simp [LinkStep, hph, hp]
    refine ⟨l, hl, ?_⟩
    simp only [ClientCacheLock.revokeHandler, hstate]
    exact hi.moveEntry hls (by simp_all [EntryOk]) (by rw [hph]; rfl) (hph ▸ .mark)
  · -- nobody holds the lock: the handler gives it back
    simp only [hph, EntryOk] at he
    obtain ⟨l, hl, hstate, hcount, hflag, _⟩ := he
    have hls : LinkSteps a (s.pc a) (.revoking h ret (.rel .flush)) h (ph h) (.flushing a) := by
      constructor <;> simp [LinkStep, hph, hp]
    refine ⟨l, hl, ?_⟩
    simp only [ClientCacheLock.revokeHandler, hstate]
    exact hi.moveEntry hls (by simp_all [EntryOk]) (by rw [hph]; rfl) (hph ▸ .takeCached)

/-! ## `acquire` at the server -/

/-- The client whose lock the server counts as taken has a revoke coming. -/
def Phase.sendRevoke (a : Act) : Phase → Phase
  | .granted t _ => .granted t (.msg a)
  | .held t _ => .held t (.msg a)
  | .cached _ => .cached (.msg a)
  | p => p

/-- A tenure the server has not revoked yet. -/
theorem Phase.unrevoked {P : Phase} (ht : P.tenure = true) (hr : P.revoked = false) :
    (∃ t, P = .granted t .none) ∨ (∃ t, P = .held t .none) ∨ P = .cached .none := by
  cases P <;> simp_all

theorem Phase.queued_of_called {P : Phase} (h : P.called = true) : P.queued = true := by
  cases P <;> simp_all

theorem ServerOk.queue_update {l : CacheLock} {P : Phase} {q : Finset ClientId}
    (h : ServerOk ph l) (hc : c ∈ q ↔ P.queued = true) (hq : ∀ x, x ≠ c → (x ∈ q ↔ x ∈ l.queue))
    (x : ClientId) : x ∈ q ↔ (Function.update ph c P x).queued = true := by
  by_cases hx : x = c
  · subst hx
    simpa using hc
  · rw [hq x hx, h.queue]
    simp [hx]

/-- If nobody waits, nobody is called. -/
theorem ServerOk.called_of_empty {l : CacheLock} (h : ServerOk ph l) (hq : l.queue = ∅)
    (x : ClientId) : (ph x).called = false := by
  cases hx : (ph x).called with
  | false => rfl
  | true =>
      have := (h.queue x).mpr (Phase.queued_of_called hx)
      simp [hq] at this

/-- FREE to LOCKED. -/
theorem ServerOk.grant {l : CacheLock} {t : ThreadId} (h : ServerOk ph l) (hs : l.state = .free) :
    ServerOk (Function.update ph c (.granted t .none)) { l with state := .locked, client := c } := by
  have hst := h.state
  simp only [StateOk, hs] at hst
  refine ⟨h.queue_update (by simp [hst.1]) fun _ _ => Iff.rfl, hst.1, fun x => ?_, by simp⟩
  by_cases hx : x = c
  · simp [hx]
  · simp [hx, hst.2, -Phase.tenure]

/-- LOCKED to LOCKED_AND_WAIT: `c` is denied and the holder has a revoke coming. -/
theorem ServerOk.revoke {l : CacheLock} {t : ThreadId} (h : ServerOk ph l)
    (hs : l.state = .locked) (hc : ph c = .requesting t false) :
    ServerOk (Function.update (Function.update ph c (.denied t .none)) l.client
        ((ph l.client).sendRevoke a))
      { l with state := .lockedAndWait, queue := insert c l.queue } := by
  have hcalled := h.called_of_empty (by have := h.state; simp only [StateOk, hs] at this; exact this.1)
  have hst := h.state
  simp only [StateOk, hs] at hst
  obtain ⟨hq, ht, hr⟩ := hst
  have hne : c ≠ l.client := by
    rintro rfl
    have := (ht l.client).mpr rfl
    simp [hc] at this
  have hP := Phase.unrevoked ((ht l.client).mpr rfl) hr
  have hx : ∀ x, x = l.client ∨ x = c ∨ (x ≠ l.client ∧ x ≠ c) := by grind
  refine ⟨fun x => ?_, Finset.insert_nonempty _ _, fun x => ?_, ?_, fun x => ?_⟩
  · rcases hx x with rfl | rfl | ⟨h₁, h₂⟩
    · rcases hP with ⟨t, hP⟩ | ⟨t, hP⟩ | hP <;> simp [hP, Phase.sendRevoke, hq, hne.symm]
    · simp [hne]
    · simpa [h₁, h₂] using h.queue x
  · rcases hx x with rfl | rfl | ⟨h₁, h₂⟩
    · rcases hP with ⟨t, hP⟩ | ⟨t, hP⟩ | hP <;> simp [hP, Phase.sendRevoke]
    · simp [hne]
    · simpa [h₁, h₂] using ht x
  · rcases hP with ⟨t, hP⟩ | ⟨t, hP⟩ | hP <;> simp [hP, Phase.sendRevoke]
  · rcases hx x with rfl | rfl | ⟨h₁, h₂⟩
    · rcases hP with ⟨t, hP⟩ | ⟨t, hP⟩ | hP <;> simp [hP, Phase.sendRevoke]
    · simp [hne]
    · simpa [h₁, h₂] using hcalled x

/-- The server answers RETRY to a client that was not called, and sends no revoke for it. -/
theorem ServerOk.deny {l : CacheLock} {t : ThreadId} (h : ServerOk ph l)
    (hc : ph c = .requesting t false) (hs : l.state = .lockedAndWait ∨ l.state = .ordered) :
    ServerOk (Function.update ph c (.denied t .none)) { l with queue := insert c l.queue } := by
  have htenure : ∀ x, (Function.update ph c (.denied t .none) x).tenure = (ph x).tenure :=
    update_same (f := fun _ => Phase.tenure) (by simp [hc])
  have hrevoked : ∀ x, (Function.update ph c (.denied t .none) x).revoked = (ph x).revoked :=
    update_same (f := fun _ => Phase.revoked) (by simp [hc])
  have hcalled : ∀ x, (Function.update ph c (.denied t .none) x).called = (ph x).called :=
    update_same (f := fun _ => Phase.called) (by simp [hc])
  refine ⟨h.queue_update (by simp) (fun x hx => by simp [hx]), ?_⟩
  have hst := h.state
  rcases hs with hs | hs <;> simp only [StateOk, hs, htenure, hrevoked, hcalled] at hst ⊢
  · exact ⟨Finset.insert_nonempty _ _, hst.2⟩
  · obtain ⟨h₁, x, hx, h₂⟩ := hst
    exact ⟨h₁, x, Finset.mem_insert_of_mem hx, h₂⟩

/-- ORDERED, and the client that was called comes. A revoke follows at once if others wait. -/
theorem ServerOk.hand {l : CacheLock} {t : ThreadId} {r : Rev} (h : ServerOk ph l)
    (hs : l.state = .ordered) (hc : ph c = .requesting t true)
    (hr : r = .none ↔ l.queue.erase c = ∅) :
    ServerOk (Function.update ph c (.granted t r))
      { client := c, queue := l.queue.erase c,
        state := if r = .none then .locked else .lockedAndWait } := by
  have hst := h.state
  simp only [StateOk, hs] at hst
  obtain ⟨htenure, w, hw, hcalled⟩ := hst
  -- it was `c` that the server had called
  have hcw : c = w := (hcalled c).mp (by simp [hc])
  have ht : ∀ x, (Function.update ph c (.granted t r) x).tenure = true ↔ x = c := by
    intro x
    by_cases hx : x = c
    · simp [hx]
    · simp [hx, htenure, -Phase.tenure]
  refine ⟨h.queue_update (by simp) fun x hx => by simp [hx], ?_⟩
  by_cases hn : r = .none
  · simp only [StateOk, hn, if_true] at ht ⊢
    exact ⟨hr.mp hn, ht, by simp⟩
  · simp only [StateOk, hn, if_false]
    refine ⟨Finset.nonempty_iff_ne_empty.mpr fun he => hn (hr.mpr he), ht, by simp [hn], fun x => ?_⟩
    by_cases hx : x = c
    · simp [hx]
    · have := hcalled x
      rw [← hcw] at this
      simpa [hx] using this

/-- The server's answer RETRY takes off. -/
theorem Links.deny {b : Bool} (h : Links clients pc ph) (hp : pc a = .acquireCall)
    (hph : ph a.1 = .requesting a.2 b) :
    Links clients (update pc a (.acquireReply .retry)) (update ph a.1 (.denied a.2 .none)) := by
  have he := h.entry a.1
  rw [hph] at he
  refine h.move ?_ (by simpa [EntryOk] using he)
  constructor <;> simp [LinkStep, hph, hp]

/-- The answer OK takes off, or before it a revoke to the very client that gets the lock. -/
theorem Links.grant {b : Bool} {p : Pc} {r : Rev} (h : Links clients pc ph)
    (hp : pc a = .acquireCall) (hph : ph a.1 = .requesting a.2 b)
    (hr : p = .acquireReply .ok ∧ r = .none ∨ p = .revoking a.1 .ok .call ∧ r = .msg a) :
    Links clients (update pc a p) (update ph a.1 (.granted a.2 r)) := by
  have he := h.entry a.1
  rw [hph] at he
  rcases hr with ⟨rfl, rfl⟩ | ⟨rfl, rfl⟩
  all_goals
    refine h.move ?_ (by simpa [EntryOk] using he)
    constructor <;> simp [LinkStep, hph, hp]

/-- The thread is denied first, then its revoke to the holder `x` takes off. -/
theorem Links.denyRevoke {x : ClientId} (h : Links clients pc ph) (hp : pc a = .acquireCall)
    (hph : ph a.1 = .requesting a.2 false) (hne : x ≠ a.1) (ht : (ph x).tenure = true)
    (hr : (ph x).revoked = false) :
    Links clients (update pc a (.revoking x .retry .call))
      (update (update ph a.1 (.denied a.2 .none)) x ((ph x).sendRevoke a)) := by
  have hP := Phase.unrevoked ht hr
  have he := h.entry x
  have hmove := (h.deny hp hph).move (a := a) (c := x) (p := .revoking x .retry .call)
    (P := (ph x).sendRevoke a) ?_ ?_
  · simpa using hmove
  · rcases hP with ⟨t, hP⟩ | ⟨t, hP⟩ | hP <;> constructor <;>
      simp [LinkStep, Phase.sendRevoke, hP, hne]
  · rcases hP with ⟨t, hP⟩ | ⟨t, hP⟩ | hP <;> simpa [hP, Phase.sendRevoke, EntryOk] using he

theorem moves_denyRevoke {x : ClientId} (hph : ph a.1 = .requesting a.2 false) (hne : x ≠ a.1)
    (ht : (ph x).tenure = true) (hr : (ph x).revoked = false) :
    Moves ph (update (update ph a.1 (.denied a.2 .none)) x ((ph x).sendRevoke a))
      [.sendRevoke x] := by
  intro y
  by_cases hx : y = x
  · subst hx
    rcases Phase.unrevoked ht hr with ⟨t, hP⟩ | ⟨t, hP⟩ | hP <;>
      simp [hP, Phase.sendRevoke, eventsOf, Event.client]
    exacts [.revokeGranted, .revokeHeld, .revokeCached]
  · by_cases hxa : y = a.1
    · subst hxa
      simpa [hx, Ne.symm hne, eventsOf, Event.client, hne, hph] using Move.deny
    · simpa [hx, hxa, eventsOf, Event.client, Ne.symm hx] using Move.stay

theorem inv_acquireCall {l : CacheLock} (hlinks : Links s.clients s.pc ph) (hserver : ServerOk ph l)
    (hp : s.pc a = .acquireCall) :
    let r := l.acquire a.1
    ∃ ph', Inv (({ s with server := some r.1 }).setPc a
        (r.2.2.elim (.acquireReply r.2.1) fun holder => .revoking holder r.2.1 .call)) ph' ∧
      Moves ph ph' ((if r.2.1 = .ok then [.granted a.1] else []) ++
        r.2.2.elim [] fun holder => [.sendRevoke holder]) := by
  obtain ⟨b, hph⟩ := Phase.own_requesting (hlinks.phase_own (a := a) (by simp [hp]))
  have hb : a.1 ∈ l.queue ↔ b = true := by simpa [hph] using hserver.queue a.1
  have hst := hserver.state
  cases hs : l.state with
  | free =>
      simp only [CacheLock.acquire, hs, Option.elim_none, if_true, List.append_nil]
      exact ⟨update ph a.1 (.granted a.2 .none),
        ⟨hlinks.grant hp hph (.inl ⟨rfl, rfl⟩), hserver.grant hs⟩,
        Moves.update (hph ▸ .grant)⟩
  | locked =>
      simp only [StateOk, hs] at hst
      obtain ⟨hq, ht, hr⟩ := hst
      have hbf : b = false := by simpa [hq] using hb
      subst hbf
      have htenure := (ht l.client).mpr rfl
      have hne : l.client ≠ a.1 := by
        intro h
        simp [h, hph] at htenure
      simp only [CacheLock.acquire, hs, Option.elim_some]
      exact ⟨update (update ph a.1 (.denied a.2 .none)) l.client ((ph l.client).sendRevoke a),
        ⟨hlinks.denyRevoke hp hph hne htenure hr, hserver.revoke hs hph⟩,
        moves_denyRevoke hph hne htenure hr⟩
  | lockedAndWait =>
      simp only [StateOk, hs] at hst
      have hbf : b = false := by simpa [hph] using hst.2.2.2 a.1
      subst hbf
      simp only [CacheLock.acquire, hs]
      exact ⟨update ph a.1 (.denied a.2 .none),
        ⟨hlinks.deny hp hph, hs ▸ hserver.deny hph (.inl hs)⟩,
        Moves.update (hph ▸ .deny)⟩
  | ordered =>
      cases b with
      | false =>
          have hnot : a.1 ∉ l.queue := by simpa using hb
          simp only [CacheLock.acquire, hs, hnot, if_false]
          exact ⟨update ph a.1 (.denied a.2 .none),
            ⟨hlinks.deny hp hph, hs ▸ hserver.deny hph (.inr hs)⟩,
            Moves.update (hph ▸ .deny)⟩
      | true =>
          have hmem : a.1 ∈ l.queue := by simpa using hb
          by_cases hq : l.queue.erase a.1 = ∅
          · simp only [CacheLock.acquire, hs, hmem, if_true, hq, Finset.card_empty, ne_eq,
              not_true_eq_false, if_false]
            exact ⟨update ph a.1 (.granted a.2 .none),
              ⟨hlinks.grant hp hph (.inl ⟨rfl, rfl⟩),
                hq ▸ hserver.hand hs hph (r := .none) (by simp [hq])⟩,
              Moves.update (hph ▸ .grant)⟩
          · -- others wait, so the lock is granted and revoked in one section
            have hcard : (l.queue.erase a.1).card ≠ 0 := by simpa [Finset.card_eq_zero] using hq
            simp only [CacheLock.acquire, hs, hmem, if_true, hcard, ne_eq, not_false_eq_true]
            exact ⟨update ph a.1 (.granted a.2 (.msg a)),
              ⟨hlinks.grant hp hph (.inr ⟨rfl, rfl⟩),
                hserver.hand hs hph (r := .msg a) (by simpa using hq)⟩,
              Moves.update (hph ▸ .grantRevoke)⟩

/-! ## Giving the lock back -/

@[simp] def RelPc.ret : RelPc → Option (ClientId × Unit)
  | .retry addr => some (addr, ())
  | _ => none

/-- A release of client `x` runs inside an activity: `wrap p` is the activity's place while the
release is at `p`, and `fin` its place after the release. -/
structure Wraps (a : Act) (x : ClientId) (wrap : RelPc → Pc) (fin : Pc) : Prop where
  own : ∀ p, (wrap p).own a = fin.own a
  rel : ∀ p, (wrap p).rel a = some (x, p.rel)
  rev : ∀ p, (wrap p).rev = none
  ret : ∀ p, (wrap p).ret = p.ret
  fin_rel : fin.rel a = none
  fin_rev : fin.rev = none
  fin_ret : fin.ret = none

theorem wraps_release : Wraps a a.1 .releasing .idle := by
  constructor <;> first | rfl | (intro p; cases p <;> rfl)

theorem wraps_revoke {h : ClientId} {ret : Status} :
    Wraps a h (fun p => .revoking h ret (.rel p)) (.acquireReply ret) := by
  constructor <;> first | rfl | (intro p; cases p <;> rfl)

/-- LOCKED_AND_WAIT to ORDERED: `x` is through and the first waiter `w` has a retry coming. -/
theorem ServerOk.back {l : CacheLock} {x w : ClientId} {t : ThreadId} (h : ServerOk ph l)
    (hs : l.state = .lockedAndWait) (hx : ph x = .sending a) (hw : ph w = .denied t .none)
    (hmem : w ∈ l.queue) :
    ServerOk (Function.update (Function.update ph x (.settling a)) w (.denied t (.msg a)))
      { l with state := .ordered, client := "" } := by
  have hst := h.state
  simp only [StateOk, hs] at hst
  obtain ⟨-, ht, -, hcalled⟩ := hst
  have hne : w ≠ x := by
    rintro rfl
    simp [hx] at hw
  have hxc : x = l.client := (ht x).mp (by simp [hx])
  have hy : ∀ y, y = w ∨ y = x ∨ (y ≠ w ∧ y ≠ x) := by grind
  refine ⟨fun y => ?_, fun y => ?_, w, hmem, fun y => ?_⟩
  · rcases hy y with rfl | rfl | ⟨h₁, h₂⟩
    · simpa using hmem
    · simpa [hne.symm, hx] using h.queue y
    · simpa [h₁, h₂] using h.queue y
  · rcases hy y with rfl | rfl | ⟨h₁, h₂⟩
    · simp
    · simp [hne.symm]
    · have := ht y
      rw [← hxc] at this
      simpa [h₁, h₂] using this
  · rcases hy y with rfl | rfl | ⟨h₁, h₂⟩
    · simp
    · simp [hne.symm]
    · have := hcalled y
      simpa [h₁, h₂] using this

/-- The server is in LOCKED_AND_WAIT while a release is on its way to it. -/
theorem ServerOk.of_sending {l : CacheLock} {x : ClientId} (h : ServerOk ph l)
    (hx : ph x = .sending a) : l.state = .lockedAndWait := by
  have hst := h.state
  cases hs : l.state <;> simp only [StateOk, hs] at hst ⊢
  · have := hst.2 x
    simp [hx] at this
  · -- LOCKED: the holder was not revoked, but `x` was
    have hxc := (hst.2.1 x).mp (by simp [hx])
    have := hst.2.2
    rw [← hxc, hx] at this
    simp at this
  · have := hst.1 x
    simp [hx] at this

theorem Phase.denied_of_queued {P : Phase} (hq : P.queued = true) (hc : P.called = false) :
    ∃ t, P = .denied t .none := by
  cases P <;> simp_all

/-- The first waiter that the server's `release` finds, in its phase. -/
theorem Inv.release_server {x : ClientId} (hi : Inv s ph) (hx : ph x = .sending a) :
    ∃ l w t, s.server = some l ∧ l.state = .lockedAndWait ∧ CacheLock.begin? l.queue = some w ∧
      w ∈ l.queue ∧ ph w = .denied t .none := by
  have hlw := hi.server.of_sending hx
  have hst := hi.server.state
  obtain ⟨l, hl⟩ : ∃ l, s.server = some l := by
    cases h : s.server with
    | none => simp [h, CacheLock.new] at hlw
    | some l => exact ⟨l, rfl⟩
  simp only [hl, Option.getD_some] at hlw hst
  simp only [StateOk, hlw] at hst
  obtain ⟨w, hw⟩ := CacheLock.begin?_of_nonempty hst.1
  have hmem := CacheLock.begin?_mem hw
  have hqueue := hi.server.queue w
  simp only [hl, Option.getD_some, hmem, true_iff] at hqueue
  obtain ⟨t, ht⟩ := Phase.denied_of_queued hqueue (hst.2.2.2 w)
  exact ⟨l, w, t, hl, hlw, hw, hmem, ht⟩

section

variable {x : ClientId} {wrap : RelPc → Pc} {fin : Pc}

/-- A step from `p` to `q` that does not touch the links of the activity's own client and of
revokes. -/
theorem Wraps.steps (hw : Wraps a x wrap fin) (p q : RelPc) {y : ClientId} {P P' : Phase}
    (hown : P'.own y = P.own y) (hrev : P'.rev = P.rev)
    (hrel : LinkStep (fun b q => q.rel b) (fun _ Q => Q.rel) a (wrap p) (wrap q) y P P')
    (hret : LinkStep (fun _ q => q.ret) (fun _ Q => Q.ret) a (wrap p) (wrap q) y P P') :
    LinkSteps a (wrap p) (wrap q) y P P' :=
  ⟨.inl ⟨(hw.own q).trans (hw.own p).symm, hown⟩, hrel,
    .inl ⟨(hw.rev q).trans (hw.rev p).symm, hrev⟩, hret⟩

/-- The next step of the release of `x`, at place `p`, can be taken and keeps the invariant. -/
def ReleaseStepOk (s : LockState) (ph : ClientId → Phase) (a : Act) (x : ClientId)
    (wrap : RelPc → Pc) (fin : Pc) (p : RelPc) : Prop :=
  ∃ s' q es, releaseStep s x p = some (s', q, es) ∧
    ∃ ph', Inv (s'.setPc a (q.elim fin wrap)) ph' ∧ Moves ph ph' es

/-- `dorelease` returns and the release RPC is sent. -/
theorem inv_releaseFlush (hw : Wraps a x wrap fin) (hi : Inv s ph) (hp : s.pc a = wrap .flush)
    (hph : ph x = .flushing a) : ReleaseStepOk s ph a x wrap fin .flush := by
  have hls : LinkSteps a (wrap .flush) (wrap .call) x (.flushing a) (.sending a) :=
    hw.steps .flush .call rfl rfl
      (.inr ⟨.inr ⟨_, hw.rel .flush⟩, .inr ⟨.sending, hw.rel .call, rfl⟩⟩)
      (.inl ⟨(hw.ret .call).trans (hw.ret .flush).symm, rfl⟩)
  rw [← hp, ← hph] at hls
  have he := hi.links.entry x
  rw [hph] at he
  exact ⟨s, some .call, _, rfl, update ph x (.sending a),
    ⟨hi.links.move hls he, hi.server.update (by rw [hph]; rfl)⟩, Moves.update (hph ▸ .send)⟩

/-- The server takes the lock back and informs its first waiter `w`. -/
theorem inv_releaseCall (hw : Wraps a x wrap fin) (hi : Inv s ph) (hp : s.pc a = wrap .call)
    (hph : ph x = .sending a) : ReleaseStepOk s ph a x wrap fin .call := by
  obtain ⟨l, w, t, hl, hs, hbegin, hmem, hdenied⟩ := hi.release_server hph
  have hne : w ≠ x := by
    rintro rfl
    simp [hph] at hdenied
  have hls : LinkSteps a (wrap .call) (wrap .reply) x (.sending a) (.settling a) :=
    hw.steps .call .reply rfl rfl
      (.inr ⟨.inr ⟨_, hw.rel .call⟩, .inr ⟨.settling, hw.rel .reply, rfl⟩⟩)
      (.inl ⟨(hw.ret .reply).trans (hw.ret .call).symm, rfl⟩)
  rw [← hp, ← hph] at hls
  have he := hi.links.entry x
  rw [hph] at he
  have hlinks := hi.links.move hls he
  -- the waiter's retry takes off once `x` is through
  have hls' : LinkSteps a (wrap .reply) (wrap (.retry w)) w (.denied t .none) (.denied t (.msg a)) :=
    hw.steps .reply (.retry w) rfl rfl
      (.inl ⟨(hw.rel (.retry w)).trans (hw.rel .reply).symm, rfl⟩)
      (.inr ⟨.inl ⟨hw.ret .reply, rfl⟩, .inr ⟨(), hw.ret (.retry w), rfl⟩⟩)
  have hwaiter : update ph x (.settling a) w = .denied t .none := by simpa [hne] using hdenied
  have hmove := hlinks.move (a := a) (c := w) (p := wrap (.retry w)) (P := .denied t (.msg a))
    (by simpa [hwaiter] using hls') (by simpa [hdenied, EntryOk] using hi.links.entry w)
  refine ⟨{ s with server := some { l with state := .ordered, client := "" } },
    some (.retry w), [.returned x], ?_,
    update (update ph x (.settling a)) w (.denied t (.msg a)), ⟨?_, ?_⟩, fun y => ?_⟩
  · simp [releaseStep, serverRelease, hl, CacheLock.release, hs, hbegin]
  · simpa [LockState.setPc] using hmove
  · exact (hl ▸ hi.server).back hs hph hdenied hmem
  · by_cases hyw : y = w
    · subst hyw
      simpa [eventsOf, Event.client, hdenied, hne.symm] using Move.inform
    · by_cases hyx : y = x
      · subst hyx
        simpa [eventsOf, Event.client, hyw, hph] using Move.back
      · simpa [eventsOf, Event.client, hyw, hyx, Ne.symm hyx] using Move.stay

/-- The retry is delivered at `addr`. -/
theorem inv_releaseRetry {addr : ClientId} (hw : Wraps a x wrap fin) (hi : Inv s ph)
    (hp : s.pc a = wrap (.retry addr)) : ReleaseStepOk s ph a x wrap fin (.retry addr) := by
  have hret : (s.pc a).ret = some (addr, ()) := by rw [hp, hw.ret, RelPc.ret]
  obtain ⟨t, hdenied⟩ := Phase.eq_of_ret ((hi.links.ret a addr ()).mp hret)
  have he := hi.links.entry addr
  simp only [hdenied, EntryOk] at he
  obtain ⟨l, hl, hstate, hcount, hflag⟩ := he
  have hls : LinkSteps a (wrap (.retry addr)) (wrap .reply) addr (.denied t (.msg a))
      (.denied t .flagged) :=
    hw.steps (.retry addr) .reply rfl rfl
      (.inl ⟨(hw.rel .reply).trans (hw.rel (.retry addr)).symm, rfl⟩)
      (.inr ⟨.inr ⟨(), hw.ret (.retry addr)⟩, .inl ⟨hw.ret .reply, rfl⟩⟩)
  rw [← hp, ← hdenied] at hls
  refine ⟨s.mapClient addr .retryHandler, some .reply, [], rfl, ?_⟩
  simp only [LockState.mapClient, hl]
  exact hi.moveEntry hls (by simp [EntryOk, ClientCacheLock.retryHandler, hstate, hcount])
    (by rw [hdenied]; rfl) (hdenied ▸ .flag)

/-- The release RPC returns. -/
theorem inv_releaseReply (hw : Wraps a x wrap fin) (hi : Inv s ph) (hp : s.pc a = wrap .reply)
    (hph : ph x = .settling a) : ReleaseStepOk s ph a x wrap fin .reply := by
  have he := hi.links.entry x
  simp only [hph, EntryOk] at he
  obtain ⟨l, hl, hstate, hcount, hflag⟩ := he
  have hls : LinkSteps a (wrap .reply) fin x (.settling a) .idle :=
    ⟨.inl ⟨(hw.own .reply).symm, rfl⟩, .inr ⟨.inr ⟨_, hw.rel .reply⟩, .inl ⟨hw.fin_rel, rfl⟩⟩,
      .inl ⟨hw.fin_rev.trans (hw.rev .reply).symm, rfl⟩,
      .inl ⟨hw.fin_ret.trans (hw.ret .reply).symm, rfl⟩⟩
  rw [← hp, ← hph] at hls
  refine ⟨s.mapClient x .released, none, [], rfl, ?_⟩
  simp only [LockState.mapClient, hl]
  exact hi.moveEntry hls (by simp [EntryOk, ClientCacheLock.released, hcount, hflag])
    (by rw [hph]; rfl) (hph ▸ .finish)

theorem inv_releaseStep {p : RelPc} (hw : Wraps a x wrap fin) (hi : Inv s ph)
    (hp : s.pc a = wrap p) : ReleaseStepOk s ph a x wrap fin p := by
  have hrel : (ph x).rel = some (a, p.rel) :=
    (hi.links.rel a x _).mp ((congrArg (Pc.rel a) hp).trans (hw.rel p))
  have hph := Phase.eq_of_rel hrel
  cases p with
  | flush => exact inv_releaseFlush hw hi hp hph
  | call => exact inv_releaseCall hw hi hp hph
  | retry addr => exact inv_releaseRetry hw hi hp
  | reply => exact inv_releaseReply hw hi hp hph

end

/-! ## All steps -/

theorem inv_initial : Inv .initial fun _ => .idle where
  links := {
    own := by intro a x o; simp [LockState.initial]
    rel := by intro a x o; simp [LockState.initial]
    rev := by intro a x o; simp [LockState.initial]
    ret := by intro a x o; simp [LockState.initial]
    entry := by intro c; simp [EntryOk, LockState.initial] }
  server := ⟨by simp [LockState.initial, CacheLock.new], by simp [StateOk, LockState.initial,
    CacheLock.new]⟩

/-- A thread wakes up in `acquire`, for the `switch` or to wait again. -/
theorem inv_wake {l : ClientCacheLock} {r : ClientCacheLock × AcquireNext} (hi : Inv s ph)
    (ha : (s.pc a).Aside) (hl : s.clients a.1 = some l)
    (hr : r = l.acquire a.2 ∨ r = (l, .wait) ∨ r = (l, .waitRelease)) :
    ∃ ph', Inv (leaveAcquire s a r).1 ph' ∧ Moves ph ph' (leaveAcquire s a r).2 := by
  rcases hr with rfl | rfl | rfl
  · simpa [hl] using inv_switch hi ha
  · exact ⟨ph, inv_wait hi ha hl (.inr (.inl rfl)), Moves.stay⟩
  · exact ⟨ph, inv_wait hi ha hl (.inr (.inr rfl)), Moves.stay⟩

/-- Every step keeps the invariant and moves the clients along their cycle. -/
theorem inv_next {s' : LockState} {es : List Event} (hi : Inv s ph)
    (hn : next s a = some (s', es)) : ∃ ph', Inv s' ph' ∧ Moves ph ph' es := by
  have hentry := hi.links.entry a.1
  cases hp : s.pc a with
  | idle =>
      simp only [next, hp, Option.some.injEq] at hn
      simpa [hn] using inv_switch hi (.inl hp)
  | waiting =>
      simp only [next, hp, Option.bind_eq_bind, Option.pure_def, Option.bind_eq_some_iff,
        Option.some.injEq] at hn
      obtain ⟨l, hl, hn⟩ := hn
      have := inv_wake hi (.inr (.inl hp)) hl (r := l.wakeWait a.2)
        (by grind [ClientCacheLock.wakeWait])
      rwa [hn] at this
  | waitingRelease =>
      simp only [next, hp, Option.bind_eq_bind, Option.pure_def, Option.bind_eq_some_iff,
        Option.some.injEq] at hn
      obtain ⟨l, hl, hn⟩ := hn
      have := inv_wake hi (.inr (.inr hp)) hl (r := l.wakeRelease a.2)
        (by grind [ClientCacheLock.wakeRelease])
      rwa [hn] at this
  | waitingRetry =>
      obtain ⟨r, hph⟩ := Phase.own_denied (hi.links.phase_own (a := a) (by simp [hp]))
      simp only [next, hp, Option.bind_eq_bind, Option.pure_def, Option.bind_eq_some_iff,
        Option.some.injEq] at hn
      obtain ⟨l, hl, hn⟩ := hn
      have := inv_wakeRetry hi (.inl hp) hph hl
      rwa [hn] at this
  | acquireCall =>
      simp only [next, hp, Option.some.injEq, Prod.mk.injEq] at hn
      obtain ⟨rfl, rfl⟩ := hn
      exact inv_acquireCall hi.links hi.server hp
  | revoking h ret p =>
      cases p with
      | call =>
          obtain ⟨l, hl, hstep⟩ := inv_revoke hi hp
          simp only [next, hp, hl, Option.some.injEq, Prod.mk.injEq] at hn
          obtain ⟨rfl, rfl⟩ := hn
          exact hstep
      | rel p =>
          obtain ⟨s₁, q, es₁, hstep, hinv⟩ := inv_releaseStep wraps_revoke hi hp
          simp only [next, hp, hstep, Option.bind_eq_bind, Option.bind_some, Option.pure_def,
            Option.some.injEq, Prod.mk.injEq] at hn
          obtain ⟨rfl, rfl⟩ := hn
          exact hinv
  | acquireReply ret =>
      simp only [next, hp, Option.bind_eq_bind, Option.pure_def, Option.bind_eq_some_iff,
        Option.some.injEq] at hn
      obtain ⟨l, hl, hn⟩ := hn
      have := inv_acquireReply hi hp hl
      rwa [hn] at this
  | holding =>
      obtain ⟨r, hph⟩ := Phase.own_held (hi.links.phase_own (a := a) (by simp [hp]))
      simp only [hph, EntryOk] at hentry
      obtain ⟨l, hl, -⟩ := hentry
      simp only [next, hp, hl, Option.some.injEq, Prod.mk.injEq] at hn
      obtain ⟨rfl, rfl⟩ := hn
      exact inv_release hi hp hl
  | releasing p =>
      obtain ⟨s₁, q, es₁, hstep, hinv⟩ := inv_releaseStep wraps_release hi hp
      simp only [next, hp, hstep, Option.bind_eq_bind, Option.bind_some, Option.pure_def,
        Option.some.injEq, Prod.mk.injEq] at hn
      obtain ⟨rfl, rfl⟩ := hn
      exact hinv

/-- Every reachable state is tied to phases. -/
theorem inv_reachable (h : lockSystem.Reachable s) : ∃ ph, Inv s ph := by
  refine h.invariant (I := fun s => ∃ ph, Inv s ph) ?_ ?_
  · rintro s rfl
    exact ⟨_, inv_initial⟩
  · rintro s a s' es ⟨ph, hi⟩ hn
    obtain ⟨ph', hi', -⟩ := inv_next hi hn
    exact ⟨ph', hi'⟩

end Yfs.Lock
