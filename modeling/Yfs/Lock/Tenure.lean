import Yfs.Lock.Invariant

/-!
# Revoke accounting

A tenure of a client starts when the server grants it the lock and ends when the server processes
its release. `tenure c h` is the tenure that the history `h` of `c` ends in, as the list of what has
happened to `c` since the grant. `Allowed` says which events may come next: a revoke that is the
only one of its tenure, a release RPC that is the only one of its tenure and comes after the
delivery of the revoke and after a thread had the lock and let it go, and so on.
`revoke_accounting` says that nothing else happens in any run. Since every event belongs to the
tenure it comes in, no revoke is charged to a later tenure.
-/

namespace Yfs.Lock

open Yfs.Lib

variable {c : ClientId} {P P' : Phase} {h es : List Event}

/-- The tenure a history is in after one more event. -/
def tenureStep (c : ClientId) (m : Option (List Event)) (e : Event) : Option (List Event) :=
  if e = .granted c then some []
  else if e = .returned c then none
  else m.map (· ++ [e])

/-- The events of the tenure that the history `h` of `c` ends in, if it ends in one. -/
def tenure (c : ClientId) (h : List Event) : Option (List Event) := h.foldl (tenureStep c) none

@[simp] theorem tenure_nil : tenure c [] = none := rfl

@[simp] theorem tenure_append : tenure c (h ++ es) = es.foldl (tenureStep c) (tenure c h) := by
  simp [tenure]

/-- Thread `t` of `c`, for some `t`, got the lock and let it go. -/
def Used (c : ClientId) (m : List Event) : Prop :=
  ∃ t, [.acquired c t, .released c t].Sublist m

/-- What may happen to `c` in the given tenure. Outside a tenure it can only start one. -/
def Allowed (c : ClientId) : Option (List Event) → Event → Prop
  | none, .granted _ => True
  | none, _ => False
  | some _, .granted _ => False
  | some m, .sendRevoke _ => m.count (.sendRevoke c) = 0
  | some m, .revoked _ => m.count (.sendRevoke c) = 1 ∧ m.count (.revoked c) = 0
  | some _, .acquired .. => True
  | some m, .released _ t => .acquired c t ∈ m
  | some m, .sendRelease _ => m.count (.sendRelease c) = 0 ∧ .revoked c ∈ m ∧ Used c m
  | some m, .returned _ => m.count (.sendRelease c) = 1

/-! ## The phase knows the tenure -/

/-- The revoke of this tenure was delivered. -/
@[simp] def Phase.delivered : Phase → Bool
  | .granted _ r | .held _ r | .cached r => r = .counted ∨ r = .marked
  | .flushing _ | .sending _ => true
  | _ => false

/-- The release RPC of this tenure was sent. -/
@[simp] def Phase.sent : Phase → Bool
  | .sending _ => true
  | _ => false

/-- What the phase says about the tenure so far. -/
structure Recorded (c : ClientId) (P : Phase) (m : List Event) : Prop where
  revokes : m.count (.sendRevoke c) = P.revoked.toNat
  deliveries : m.count (.revoked c) = P.delivered.toNat
  releases : m.count (.sendRelease c) = P.sent.toNat
  holder : ∀ t r, P = .held t r → .acquired c t ∈ m
  used : (∃ r, P = .cached r) ∨ (∃ a, P = .flushing a) ∨ (∃ a, P = .sending a) → Used c m

/-- The phase and the history agree on whether there is a tenure, and on what happened in it. -/
def Follows (c : ClientId) (P : Phase) (m : Option (List Event)) : Prop :=
  match m with
  | none => P.tenure = false
  | some m => P.tenure = true ∧ Recorded c P m

theorem Used.append {m m' : List Event} (h : Used c m) : Used c (m ++ m') :=
  h.imp fun _ ht => ht.trans (List.sublist_append_left m m')

theorem Used.of_released {m : List Event} {t : ThreadId} (h : .acquired c t ∈ m) :
    Used c (m ++ [.released c t]) :=
  ⟨t, (List.singleton_sublist.mpr h).append (List.Sublist.refl _)⟩

/-- The tenure a client in phase `P` is in. -/
theorem Follows.recorded {m : Option (List Event)} (h : Follows c P m) (hP : P.tenure = true) :
    ∃ l, m = some l ∧ Recorded c P l := by
  cases m with
  | none => exact absurd (hP.symm.trans h) (by simp)
  | some l => exact ⟨l, rfl, h.2⟩

theorem Follows.none {m : Option (List Event)} (h : Follows c P m) (hP : P.tenure = false) :
    m = none := by
  cases m with
  | none => rfl
  | some l => exact absurd (hP.symm.trans h.1) (by simp)

/-- The events of a step come one after the other, each allowed in the tenure it comes in. -/
def AllAllowed (c : ClientId) : Option (List Event) → List Event → Prop
  | _, [] => True
  | m, e :: es => Allowed c m e ∧ AllAllowed c (tenureStep c m e) es

/-- A step within a tenure: its event is allowed, and the phase keeps its record. -/
theorem Recorded.step {m : List Event} {e : Event} (hr : Recorded c P m) (hm : Move c P P' [e])
    (hP : P.tenure = true) (hP' : P'.tenure = true) :
    Allowed c (some m) e ∧ Recorded c P' (m ++ [e]) := by
  obtain ⟨hrev, hdel, hrel, hhold, hused⟩ := hr
  have hpos : m.count (.revoked c) = 1 → .revoked c ∈ m := fun h =>
    List.count_pos_iff.mp (by omega)
  cases hm with
  | leave | giveUp =>
      -- the thread that lets the lock go had got it in this tenure
      have hu := Used.of_released (hhold _ _ rfl)
      refine ⟨?_, ?_, ?_, ?_, ?_, ?_⟩ <;> simp_all [Allowed] <;> grind
  | _ => refine ⟨?_, ?_, ?_, ?_, ?_, ?_⟩ <;> simp_all [Allowed, Used.append]

/-- One step of the cycle: only allowed events, and the phase keeps its record. -/
theorem Move.follows (hm : Move c P P' es) (hf : Follows c P (tenure c h)) :
    AllAllowed c (tenure c h) es ∧ Follows c P' (tenure c (h ++ es)) := by
  rw [tenure_append]
  have hmove := hm
  cases hm with
  | stay => exact ⟨trivial, hf⟩
  -- outside of a tenure, and nothing to see
  | request | deny | inform | flag | again | finish =>
      simp [hf.none rfl, AllAllowed, Follows]
  | grant | grantRevoke =>
      simp only [hf.none rfl, AllAllowed, Allowed, tenureStep, Follows, List.foldl]
      refine ⟨by simp, by simp, ?_⟩
      constructor <;> simp
  -- the end of the tenure: the release RPC that is processed was sent in it
  | back =>
      obtain ⟨m, hm, hr⟩ := hf.recorded rfl
      simpa [hm, AllAllowed, Allowed, tenureStep, Follows] using hr.releases
  | _ =>
      obtain ⟨m, hm, hr⟩ := hf.recorded rfl
      simpa [hm, AllAllowed, tenureStep, Follows] using hr.step hmove rfl rfl

/-! ## Every run -/

theorem AllAllowed.mem {m : Option (List Event)} {pre post : List Event} {e : Event}
    (h : AllAllowed c m (pre ++ e :: post)) : Allowed c (pre.foldl (tenureStep c) m) e := by
  induction pre generalizing m with
  | nil => exact h.1
  | cons _ _ ih => exact ih h.2

theorem AllAllowed.append {m : Option (List Event)} {es es' : List Event} :
    AllAllowed c m (es ++ es') ↔
      AllAllowed c m es ∧ AllAllowed c (es.foldl (tenureStep c) m) es' := by
  induction es generalizing m with
  | nil => simp [AllAllowed]
  | cons _ _ ih => simp [AllAllowed, ih, and_assoc]

/-- The history of a client in a run of the protocol: allowed events only, and the phase of the
client at the end of the run knows the tenure. -/
theorem run_follows {τ : List Event} {s : LockState} (hrun : lockSystem.Run τ s) :
    ∃ ph, Inv s ph ∧ ∀ c, AllAllowed c none (eventsOf c τ) ∧
      Follows c (ph c) (tenure c (eventsOf c τ)) := by
  induction hrun with
  | start hs =>
      cases hs
      exact ⟨_, inv_initial, fun c => ⟨trivial, rfl⟩⟩
  | step _ hn ih =>
      obtain ⟨ph, hi, hc⟩ := ih
      obtain ⟨ph', hi', hmoves⟩ := inv_next hi hn
      refine ⟨ph', hi', fun c => ?_⟩
      obtain ⟨hall, hfollows⟩ := hc c
      obtain ⟨hall', hfollows'⟩ := (hmoves c).follows hfollows
      rw [eventsOf, List.filter_append]
      exact ⟨AllAllowed.append.mpr ⟨hall, hall'⟩, hfollows'⟩

/-- With allowed events only, every tenure has at most one revoke and at most one release RPC. -/
theorem AllAllowed.count_le {h : List Event} (ha : AllAllowed c none h) {m : List Event}
    (hm : tenure c h = some m) :
    m.count (.sendRevoke c) ≤ 1 ∧ m.count (.sendRelease c) ≤ 1 := by
  induction h using List.reverseRecOn generalizing m with
  | nil => cases hm
  | append_singleton h e ih =>
      obtain ⟨ha, he, -⟩ := AllAllowed.append.mp ha
      change Allowed c (tenure c h) e at he
      rw [tenure_append] at hm
      cases hl : tenure c h with
      | none => cases e <;> simp_all [Allowed, tenureStep]
      | some l =>
          have := ih ha hl
          cases e <;> simp_all [Allowed, tenureStep] <;> grind

/-- Revoke accounting, for every client and every lock id, in every run. -/
theorem revoke_accounting {τ : List (LockId × Event)} {w : LockId → LockState}
    (hrun : lockWorld.Run τ w) (lid : LockId) (c : ClientId) :
    (∀ pre post m, eventsOf c (System.proj lid τ) = pre ++ post → tenure c pre = some m →
      m.count (.sendRevoke c) ≤ 1 ∧ m.count (.sendRelease c) ≤ 1) ∧
    (∀ pre e post, eventsOf c (System.proj lid τ) = pre ++ e :: post →
      Allowed c (tenure c pre) e) ∧
    ∀ l, (w lid).clients c = some l → l.state = .none → l.revoke = 0 := by
  obtain ⟨ph, hi, hc⟩ := run_follows (hrun.proj lid)
  obtain ⟨hall, -⟩ := hc c
  refine ⟨fun pre post m hh => ?_, fun pre e post hh => ?_, fun l hl hs => ?_⟩
  · rw [hh] at hall
    exact (AllAllowed.append.mp hall).1.count_le
  · rw [hh] at hall
    exact hall.mem
  · have he := hi.links.entry c
    rw [hl] at he
    cases hph : ph c <;> simp only [hph, EntryOk] at he <;> grind

/-- A whole tenure of `c1`, which ends because `c2` wants the lock. -/
theorem revoke_accounting_tenure :
    ∃ τ w, lockWorld.Run τ w ∧
      eventsOf "c1" (System.proj 7 τ) = [.granted "c1", .acquired "c1" 0, .sendRevoke "c1",
        .revoked "c1", .released "c1" 0, .sendRelease "c1", .returned "c1"] ∧
      Allowed "c1" (some [.acquired "c1" 0, .sendRevoke "c1", .revoked "c1", .released "c1" 0])
        (.sendRelease "c1") := by
  obtain ⟨τ, w, hrun, hτ⟩ := System.exists_run (S := lockWorld) (s := fun _ => .initial)
    (p := fun τ _ => eventsOf "c1" (System.proj 7 τ) = [.granted "c1", .acquired "c1" 0,
      .sendRevoke "c1", .revoked "c1", .released "c1" 0, .sendRelease "c1", .returned "c1"])
    [(7, "c1", 0), (7, "c1", 0), (7, "c1", 0), (7, "c2", 0), (7, "c2", 0), (7, "c2", 0),
      (7, "c1", 0), (7, "c1", 0), (7, "c1", 0)] (fun _ => rfl) (by decide)
  exact ⟨τ, w, hrun, hτ, (revoke_accounting hrun 7 "c1").2.1 [.granted "c1", .acquired "c1" 0,
    .sendRevoke "c1", .revoked "c1", .released "c1" 0] _ [.returned "c1"] hτ⟩

end Yfs.Lock
