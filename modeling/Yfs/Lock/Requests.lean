import Yfs.Lib.System
import Yfs.Lock.Server

/-!
# The caching lock server under arbitrary requests

Here the lock server stands alone: any `acquire` and any `release` may reach it at any time, with any
client id, whether or not the client has a reason to send it. Whatever comes in, the state of a lock
says who is in its record: `state_queue_agree`.

The record of who holds the lock is another matter. `release` does not look at the id of the caller,
so the holder keeps the lock until it gives it back itself only as long as nobody else sends a
release while it is held (`holder_releases_iff`).
-/

namespace Yfs.Lock

open Yfs.Lib

/-- A request for a lock, with the client id that it is signed with. -/
inductive Request where
  | acquire (id : ClientId)
  | release (id : ClientId)
  deriving DecidableEq, Repr

/-- A request that was served: the answer to an `acquire`, the record before and after a `release`. -/
inductive Served where
  | acquire (id : ClientId) (ret : Status)
  | release (id : ClientId) (before after : Option CacheLock)
  deriving DecidableEq

@[simp] def Served.id : Served → ClientId
  | acquire id _ | release id _ _ => id

/-- The section of a handler. It is `none` where `*(queue.begin())` is undefined. -/
def serve (e : Option CacheLock) : Request → Option (Option CacheLock × List Served)
  | .acquire id => some (some (serverAcquire e id).1, [.acquire id (serverAcquire e id).2.1])
  | .release id => do
      let (e', _) ← serverRelease e
      return (e', [.release id e e'])

/-- The requests for one lock id. -/
def entrySystem : System (Option CacheLock) Request Served where
  init e := e = none
  next := serve

/-- The map `locks` of the server. -/
def serverWorld : System (LockId → Option CacheLock) (LockId × Request) (LockId × Served) :=
  .pi fun _ => entrySystem

namespace CacheLock

/-- The test before "how can free lock has a queue" in `acquire`. -/
def acquireErr (l : CacheLock) : Bool := l.state = .free ∧ l.queue.card ≠ 0

/-- The test before "nani ? queue size not zero" in `release`. -/
def releaseErr (l : CacheLock) : Bool := l.state = .locked ∧ l.queue.card ≠ 0

/-- Somebody holds the lock. -/
def Held (l : CacheLock) : Prop := l.state = .locked ∨ l.state = .lockedAndWait

/-- What the state says about the client and the queue. -/
def Agrees (l : CacheLock) : Prop :=
  match l.state with
  | .free => l.client = "" ∧ l.queue = ∅
  | .locked => l.client ≠ "" ∧ l.queue = ∅
  | .lockedAndWait => l.client ≠ "" ∧ l.queue.Nonempty
  | .ordered => l.client = "" ∧ l.queue.Nonempty

variable {l : CacheLock} {id : ClientId}

theorem agrees_new : new.Agrees := ⟨rfl, rfl⟩

/-! ## One request -/

theorem Agrees.acquire (h : l.Agrees) (hid : id ≠ "") : (l.acquire id).1.Agrees := by
  unfold Agrees at h
  cases hs : l.state with
  | free =>
      simp only [hs] at h
      simpa [CacheLock.acquire, hs, Agrees, hid] using h.2
  | locked | lockedAndWait =>
      simp only [hs] at h
      simpa [CacheLock.acquire, hs, Agrees] using h.1
  | ordered =>
      simp only [hs] at h
      simp only [CacheLock.acquire, hs]
      split
      · -- the caller is taken out of the queue; what is left of it decides
        split
        · rename_i hcard
          exact ⟨hid, Finset.card_ne_zero.mp hcard⟩
        · rename_i hcard
          exact ⟨hid, Finset.card_eq_zero.mp (not_not.mp hcard)⟩
      · simpa [hs, Agrees] using h.1

theorem Agrees.release (h : l.Agrees) :
    ∃ l' addr, l.release = some (l', addr) ∧ l'.Agrees ∧ l'.queue = l.queue := by
  have h' := h
  unfold Agrees at h
  cases hs : l.state with
  | free | ordered => exact ⟨l, none, by simp [CacheLock.release, hs], h', rfl⟩
  | locked =>
      simp only [hs] at h
      exact ⟨{ l with state := .free, client := "" }, none, by simp [CacheLock.release, hs],
        ⟨rfl, h.2⟩, rfl⟩
  | lockedAndWait =>
      simp only [hs] at h
      obtain ⟨addr, haddr⟩ := begin?_of_nonempty h.2
      exact ⟨{ l with state := .ordered, client := "" }, some addr,
        by simp [CacheLock.release, hs, haddr], ⟨rfl, h.2⟩, rfl⟩

theorem Agrees.not_err (h : l.Agrees) : l.acquireErr = false ∧ l.releaseErr = false := by
  unfold Agrees at h
  cases hs : l.state <;> simp_all [acquireErr, releaseErr]

/-- A caller who is told to try again is in the queue. -/
theorem acquire_retry (h : (l.acquire id).2.1 = .retry) : id ∈ (l.acquire id).1.queue := by
  unfold CacheLock.acquire at h ⊢
  cases hs : l.state with
  | free => simp [hs] at h
  | locked | lockedAndWait => simp
  | ordered =>
      simp only [hs] at h ⊢
      split at h
      · split at h <;> cases h
      · rename_i hmem
        simp [hmem]

/-- Only a client that gets the lock leaves the queue. -/
theorem acquire_queue {id' : ClientId} (h : id' ∈ l.queue) :
    id' ∈ (l.acquire id).1.queue ∨ id' = id ∧ (l.acquire id).2.1 = .ok := by
  unfold CacheLock.acquire
  cases hs : l.state with
  | free => exact .inl h
  | locked | lockedAndWait => exact .inl (Finset.mem_insert_of_mem h)
  | ordered =>
      simp only
      split
      · by_cases hid : id' = id
        · right
          refine ⟨hid, ?_⟩
          split <;> rfl
        · left
          split <;> exact Finset.mem_erase.mpr ⟨hid, h⟩
      · exact .inl (Finset.mem_insert_of_mem h)

/-- A lock that is held is not granted, and its client stays. -/
theorem Held.acquire (h : l.Held) (id : String) :
    (l.acquire id).2.1 = .retry ∧ (l.acquire id).1.client = l.client ∧ (l.acquire id).1.Held := by
  obtain hs | hs := h <;> simp [CacheLock.acquire, Held, hs]

theorem acquire_ok (h : (l.acquire id).2.1 = .ok) :
    (l.acquire id).1.client = id ∧ (l.acquire id).1.Held := by
  unfold CacheLock.acquire at h ⊢
  cases hs : l.state with
  | free => exact ⟨rfl, .inl rfl⟩
  | locked | lockedAndWait => simp [hs] at h
  | ordered =>
      simp only [hs] at h ⊢
      split
      · split
        · exact ⟨rfl, .inr rfl⟩
        · exact ⟨rfl, .inl rfl⟩
      · rename_i hmem
        simp [hmem] at h

/-- Whoever sends the release, it has an effect exactly if the lock is held. -/
theorem release_eq_self_iff {l' : CacheLock} {addr : Option ClientId}
    (h : l.release = some (l', addr)) : l' = l ↔ ¬ l.Held := by
  unfold CacheLock.release at h
  have hstate : l'.state ≠ l.state → l' ≠ l := fun hne heq => hne (congrArg CacheLock.state heq)
  cases hs : l.state with
  | free | ordered =>
      simp only [hs, Option.some.injEq, Prod.mk.injEq] at h
      obtain ⟨rfl, -⟩ := h
      simp [Held, hs]
  | locked =>
      simp only [hs, Option.some.injEq, Prod.mk.injEq] at h
      obtain ⟨rfl, -⟩ := h
      exact iff_of_false (hstate (by simp [hs])) (by simp [Held, hs])
  | lockedAndWait =>
      simp only [hs, Option.bind_eq_bind, Option.bind_eq_some_iff] at h
      obtain ⟨a, -, h⟩ := h
      cases h
      exact iff_of_false (hstate (by simp [hs])) (by simp [Held, hs])

end CacheLock

/-! ## State and queue -/

/-- The answers to the `acquire` requests of `id`. -/
def answers (id : ClientId) (τ : List Served) : List Status :=
  τ.filterMap fun e => match e with
    | .acquire id' ret => if id' = id then some ret else none
    | .release .. => none

/-- `id` was told to try again, and was not answered since. -/
def Waits (id : ClientId) (τ : List Served) : Prop := (answers id τ).getLast? = some .retry

section
variable {id id' : ClientId} {ret : Status} {τ : List Served} {e e' : Option CacheLock}

theorem waits_acquire : Waits id (τ ++ [.acquire id' ret]) ↔
    if id' = id then ret = .retry else Waits id τ := by
  unfold Waits answers
  rw [List.filterMap_append]
  split
  · rename_i h
    simp [h]
  · rename_i h
    simp [h]

theorem waits_release : Waits id (τ ++ [.release id' e e']) ↔ Waits id τ := by
  unfold Waits answers
  rw [List.filterMap_append]
  simp

/-- What holds of the record of a lock after the requests `τ`. -/
structure RecordOk (τ : List Served) (e : Option CacheLock) : Prop where
  agrees : ∀ l, e = some l → l.Agrees
  waits : ∀ id, Waits id τ → ∃ l, e = some l ∧ id ∈ l.queue

theorem RecordOk.getD (h : RecordOk τ e) : (e.getD .new).Agrees := by
  cases e with
  | none => exact CacheLock.agrees_new
  | some l => exact h.agrees l rfl

theorem RecordOk.acquire (h : RecordOk τ e) (hid : id ≠ "") :
    RecordOk (τ ++ [.acquire id (serverAcquire e id).2.1]) (some (serverAcquire e id).1) where
  agrees l hl := by
    cases hl
    exact h.getD.acquire hid
  waits id' hw := by
    refine ⟨_, rfl, ?_⟩
    rw [waits_acquire] at hw
    split at hw
    · rename_i heq
      subst heq
      exact CacheLock.acquire_retry hw
    · rename_i hne
      obtain ⟨l, rfl, hmem⟩ := h.waits id' hw
      exact (CacheLock.acquire_queue hmem).resolve_right fun h' => hne h'.1.symm

theorem RecordOk.release (h : RecordOk τ e) (id : ClientId) :
    ∃ e' addr, serverRelease e = some (e', addr) ∧ RecordOk (τ ++ [.release id e e']) e' := by
  cases e with
  | none =>
      refine ⟨none, none, rfl, h.agrees, fun id' hw => ?_⟩
      rw [waits_release] at hw
      exact h.waits id' hw
  | some l =>
      obtain ⟨l', addr, hl', hagrees, hqueue⟩ := (h.agrees l rfl).release
      refine ⟨some l', addr, by simp [serverRelease, hl'], ?_, ?_⟩
      · intro l'' hl''
        cases hl''
        exact hagrees
      · intro id' hw
        rw [waits_release] at hw
        obtain ⟨l₁, hl₁, hmem⟩ := h.waits id' hw
        cases hl₁
        exact ⟨l', rfl, hqueue ▸ hmem⟩

theorem run_recordOk (hrun : entrySystem.Run τ e) (hids : ∀ x ∈ τ, x.id ≠ "") : RecordOk τ e := by
  induction hrun with
  | start hs =>
      cases hs
      exact ⟨by simp, by simp [Waits, answers]⟩
  | @step τ e q e' es _ hn ih =>
      have h := ih fun x hx => hids x (by simp [hx])
      cases q with
      | acquire id =>
          cases hn
          exact h.acquire (hids (.acquire id (serverAcquire e id).2.1) (by simp))
      | release id =>
          obtain ⟨e₁, addr, hrel, hok⟩ := h.release id
          simp only [entrySystem, serve, hrel, Option.bind_eq_bind, Option.bind_some,
            Option.pure_def, Option.some.injEq, Prod.mk.injEq] at hn
          obtain ⟨rfl, rfl⟩ := hn
          exact hok

end

/-- The requests for one lock are among the requests for all of them. -/
theorem mem_of_mem_proj {lid : LockId} {τ : List (LockId × Served)} {x : Served}
    (h : x ∈ System.proj lid τ) : (lid, x) ∈ τ := by
  simp only [System.proj, List.mem_filterMap, Option.ite_none_right_eq_some,
    Option.some.injEq] at h
  obtain ⟨⟨lid', x'⟩, hmem, rfl, rfl⟩ := h
  exact hmem

/-- After any requests with non-empty ids, for every lock id: the state of the lock agrees with its
client and its queue, `release` finds a first waiter where it looks for one, neither of the two
complaints about a queue is made, and a client that was told to try again is in the queue until it is
granted the lock. -/
theorem state_queue_agree {τ : List (LockId × Served)} {w : LockId → Option CacheLock}
    (hrun : serverWorld.Run τ w) (hids : ∀ x ∈ τ, x.2.id ≠ "") (lid : LockId) :
    (∀ l, w lid = some l → l.Agrees) ∧
    (serverRelease (w lid)).isSome = true ∧
    (((w lid).getD .new).acquireErr = false ∧ ((w lid).getD .new).releaseErr = false) ∧
    ∀ id, Waits id (System.proj lid τ) → ∃ l, w lid = some l ∧ id ∈ l.queue := by
  have h : RecordOk (System.proj lid τ) (w lid) :=
    run_recordOk (hrun.proj lid) fun x hx => hids _ (mem_of_mem_proj hx)
  obtain ⟨e', addr, hrel, -⟩ := h.release ""
  exact ⟨h.agrees, by simp [hrel], h.getD.not_err, h.waits⟩

/-- "b" waits for the lock of "a", which is released by a stranger. -/
theorem state_queue_agree_ordered :
    ∃ τ w, serverWorld.Run τ w ∧ w 7 = some ⟨"", .ordered, {"b"}⟩ ∧
      (serverRelease (w 7)).isSome = true := by
  obtain ⟨τ, w, hrun, hids, hw⟩ := System.exists_run (S := serverWorld) (s := fun _ => none)
    (p := fun τ w => (∀ x ∈ τ, x.2.id ≠ "") ∧ w 7 = some ⟨"", .ordered, {"b"}⟩)
    [(7, .acquire "a"), (7, .acquire "b"), (7, .release "c")] (fun _ => rfl) (by decide)
  exact ⟨τ, w, hrun, hw, (state_queue_agree hrun hids 7).2.1⟩

/-! ## The holder -/

/-- The client of the last grant, until it releases the lock. -/
def holderStep (m : Option ClientId) : Served → Option ClientId
  | .acquire id .ok => some id
  | .acquire .. => m
  | .release id _ _ => if m = some id then none else m

def holder (τ : List Served) : Option ClientId := τ.foldl holderStep none

/-- Between two consecutive grants, the client of the first one releases the lock. -/
def ReleasedBetween (τ : List Served) : Prop :=
  ∀ pre id mid id' post, τ = pre ++ .acquire id .ok :: (mid ++ .acquire id' .ok :: post) →
    (∀ x, .acquire x .ok ∉ mid) → ∃ before after, .release id before after ∈ mid

/-- A release by any other id than the client's leaves the record as it is. -/
def Undisturbed (τ : List Served) : Prop :=
  ∀ id before after, .release id before after ∈ τ → (∀ l, before = some l → l.client ≠ id) →
    after = before

/-- A lock that is held is released by its client only. -/
def HolderReleases (τ : List Served) : Prop :=
  ∀ id l after, .release id (some l) after ∈ τ → l.Held → l.client = id

section
variable {id : ClientId} {τ mid pre : List Served} {e : Option CacheLock} {l : CacheLock}

theorem holder_append (τ es : List Served) : holder (τ ++ es) = es.foldl holderStep (holder τ) :=
  List.foldl_append

/-- The client of a grant is the holder until it releases the lock or there is another grant. -/
theorem holder_grant (hgrant : ∀ x, .acquire x .ok ∉ mid)
    (hrel : ∀ before after, .release id before after ∉ mid) :
    holder (pre ++ .acquire id .ok :: mid) = some id := by
  rw [holder_append, List.foldl_cons]
  show mid.foldl holderStep (some id) = some id
  induction mid with
  | nil => rfl
  | cons x mid ih =>
      have hx : holderStep (some id) x = some id := by
        cases x with
        | acquire id' ret =>
            cases ret with
            | ok => exact absurd (List.mem_cons_self ..) (hgrant id')
            | _ => rfl
        | release id' before after =>
            have hne : id ≠ id' := by
              rintro rfl
              exact hrel before after (List.mem_cons_self ..)
            simp [holderStep, hne]
      rw [List.foldl_cons, hx]
      exact ih (fun y hy => hgrant y (List.mem_cons_of_mem _ hy))
        (fun b a hba => hrel b a (List.mem_cons_of_mem _ hba))

/-- What the record of a lock and the requests `τ` have to do with each other, if a lock that is held
is released by its client only. -/
structure HolderOk (τ : List Served) (e : Option CacheLock) : Prop where
  held : ∀ id, holder τ = some id → ∃ l, e = some l ∧ l.client = id ∧ l.Held
  grants : System.Each (fun pre x => ∀ id, x = .acquire id .ok → holder pre = none) τ

theorem HolderOk.acquire (h : HolderOk τ e) (id : ClientId) :
    HolderOk (τ ++ [.acquire id (serverAcquire e id).2.1]) (some (serverAcquire e id).1) where
  held id' hid' := by
    refine ⟨_, rfl, ?_⟩
    rw [holder_append] at hid'
    by_cases hok : (serverAcquire e id).2.1 = .ok
    · have hnew := CacheLock.acquire_ok hok
      simp only [hok, List.foldl_cons, List.foldl_nil, holderStep, Option.some.injEq] at hid'
      subst hid'
      exact hnew
    · have hold : holder τ = some id' := by
        cases hret : (serverAcquire e id).2.1 with
        | ok => exact absurd hret hok
        | _ => simpa [hret, holderStep] using hid'
      obtain ⟨l, rfl, hclient, hheld⟩ := h.held id' hold
      obtain ⟨-, hsame, hheld'⟩ := hheld.acquire id
      exact ⟨hsame.trans hclient, hheld'⟩
  grants := by
    apply h.grants.append
    apply System.each_singleton
    intro id' heq
    obtain ⟨-, hok⟩ := Served.acquire.inj heq
    rw [List.append_nil]
    -- a lock that has a holder is not granted
    by_contra hne
    obtain ⟨id₀, hid₀⟩ := Option.ne_none_iff_exists'.mp hne
    obtain ⟨l, rfl, -, hheld⟩ := h.held id₀ hid₀
    have hretry : (serverAcquire (some l) id).2.1 = .retry := (hheld.acquire id).1
    rw [hretry] at hok
    cases hok

theorem HolderOk.release (h : HolderOk τ e) {id : ClientId} {e' : Option CacheLock}
    {addr : Option ClientId} (hrel : serverRelease e = some (e', addr))
    (hown : ∀ l, e = some l → l.Held → l.client = id) : HolderOk (τ ++ [.release id e e']) e' where
  held id' hid' := by
    rw [holder_append] at hid'
    simp only [List.foldl_cons, List.foldl_nil, holderStep] at hid'
    split at hid'
    · cases hid'
    · rename_i hne
      -- the release is not by the holder, who would have to send it
      obtain ⟨l, rfl, hclient, hheld⟩ := h.held id' hid'
      rw [hid', ← hclient, hown l rfl hheld] at hne
      exact absurd rfl hne
  grants := by
    apply h.grants.append
    apply System.each_singleton
    intro id' heq
    cases heq

/-- A release leaves the record as it is exactly if nobody holds the lock. -/
theorem serverRelease_eq_self_iff {e' : Option CacheLock} {addr : Option ClientId}
    (h : serverRelease e = some (e', addr)) : e' = e ↔ ∀ l, e = some l → ¬ l.Held := by
  cases e with
  | none =>
      cases h
      simp
  | some l =>
      simp only [serverRelease, Option.map_eq_some_iff, Prod.mk.injEq] at h
      obtain ⟨⟨l', addr'⟩, hl', rfl, rfl⟩ := h
      simpa using CacheLock.release_eq_self_iff hl'

/-- What was written down about a release is what the handler did. -/
theorem run_released (hrun : entrySystem.Run τ e) :
    ∀ id before after, .release id before after ∈ τ →
      ∃ addr, serverRelease before = some (after, addr) := by
  induction hrun with
  | start => simp
  | @step τ e q e' es _ hn ih =>
      intro id before after hmem
      rcases List.mem_append.mp hmem with hmem | hmem
      · exact ih id before after hmem
      · cases q with
        | acquire id' =>
            cases hn
            simp at hmem
        | release id' =>
            simp only [entrySystem, serve, Option.bind_eq_bind, Option.bind_eq_some_iff] at hn
            obtain ⟨⟨e₁, addr⟩, hrel, hn⟩ := hn
            cases hn
            simp only [List.mem_singleton, Served.release.injEq] at hmem
            obtain ⟨-, rfl, rfl⟩ := hmem
            exact ⟨addr, hrel⟩

theorem run_holderOk (hrun : entrySystem.Run τ e) (hown : HolderReleases τ) : HolderOk τ e := by
  induction hrun with
  | start hs => exact ⟨by simp [holder], System.each_nil⟩
  | @step τ e q e' es _ hn ih =>
      have h := ih fun id l after hmem => hown id l after (List.mem_append_left _ hmem)
      cases q with
      | acquire id =>
          cases hn
          exact h.acquire id
      | release id =>
          simp only [entrySystem, serve, Option.bind_eq_bind, Option.bind_eq_some_iff] at hn
          obtain ⟨⟨e₁, addr⟩, hrel, hn⟩ := hn
          cases hn
          apply h.release hrel
          rintro l rfl hheld
          exact hown id l e₁ (by simp) hheld

/-- If a lock that is held is released by its client only, the lock goes from hand to hand. -/
theorem HolderOk.releasedBetween (h : HolderOk τ e) : ReleasedBetween τ := by
  intro pre id mid id' post heq hgrant
  by_contra hno
  have hholder : holder (pre ++ .acquire id .ok :: mid) = some id :=
    holder_grant hgrant fun before after hmem => hno ⟨before, after, hmem⟩
  have hsplit : τ = (pre ++ .acquire id .ok :: mid) ++ .acquire id' .ok :: post := by
    simp [heq]
  have hnone := h.grants _ _ _ hsplit id' rfl
  rw [hholder] at hnone
  cases hnone

end

/-- After any requests, for every lock id: the lock has passed from client to client by their own
releases, and no release by another client has changed its record, if and only if no release came in
for a held lock from another client than its holder. -/
theorem holder_releases_iff {τ : List (LockId × Served)} {w : LockId → Option CacheLock}
    (hrun : serverWorld.Run τ w) (lid : LockId) :
    ReleasedBetween (System.proj lid τ) ∧ Undisturbed (System.proj lid τ) ↔
      HolderReleases (System.proj lid τ) := by
  have hrun := hrun.proj lid
  constructor
  · rintro ⟨-, hsame⟩ id l after hmem hheld
    by_contra hne
    obtain ⟨addr, hrel⟩ := run_released hrun id (some l) after hmem
    have hafter : after = some l := hsame id (some l) after hmem (by simpa using hne)
    exact (serverRelease_eq_self_iff hrel).mp hafter l rfl hheld
  · intro hown
    refine ⟨(run_holderOk hrun hown).releasedBetween, ?_⟩
    intro id before after hmem hother
    obtain ⟨addr, hrel⟩ := run_released hrun id before after hmem
    rw [serverRelease_eq_self_iff hrel]
    rintro l rfl hheld
    exact hother l rfl (hown id l after hmem hheld)

/-- "a" gets the lock and gives it back, and "b" gets it. -/
theorem holder_releases_in_turn :
    ∃ τ w, serverWorld.Run τ w ∧ System.proj 7 τ = [.acquire "a" .ok,
        .release "a" (some ⟨"a", .locked, ∅⟩) (some ⟨"", .free, ∅⟩), .acquire "b" .ok] ∧
      ReleasedBetween (System.proj 7 τ) ∧ Undisturbed (System.proj 7 τ) := by
  obtain ⟨τ, w, hrun, hτ⟩ := System.exists_run (S := serverWorld) (s := fun _ => none)
    (p := fun τ _ => System.proj 7 τ = [.acquire "a" .ok,
      .release "a" (some ⟨"a", .locked, ∅⟩) (some ⟨"", .free, ∅⟩), .acquire "b" .ok])
    [(7, .acquire "a"), (7, .release "a"), (7, .acquire "b")] (fun _ => rfl) (by decide)
  refine ⟨τ, w, hrun, hτ, (holder_releases_iff hrun 7).mpr ?_⟩
  rw [hτ]
  intro id l after hmem _
  simp at hmem
  simp [hmem]

/-- "a" holds the lock, "b" releases it, and "c" gets it. -/
theorem stranger_releases :
    ∃ τ w, serverWorld.Run τ w ∧ System.proj 7 τ = [.acquire "a" .ok,
        .release "b" (some ⟨"a", .locked, ∅⟩) (some ⟨"", .free, ∅⟩), .acquire "c" .ok] ∧
      ¬ ReleasedBetween (System.proj 7 τ) ∧ ¬ Undisturbed (System.proj 7 τ) := by
  obtain ⟨τ, w, hrun, hτ⟩ := System.exists_run (S := serverWorld) (s := fun _ => none)
    (p := fun τ _ => System.proj 7 τ = [.acquire "a" .ok,
      .release "b" (some ⟨"a", .locked, ∅⟩) (some ⟨"", .free, ∅⟩), .acquire "c" .ok])
    [(7, .acquire "a"), (7, .release "b"), (7, .acquire "c")] (fun _ => rfl) (by decide)
  refine ⟨τ, w, hrun, hτ, fun h => ?_, fun h => ?_⟩
  · obtain ⟨before, after, hmem⟩ := h [] "a" [.release "b" (some ⟨"a", .locked, ∅⟩)
      (some ⟨"", .free, ∅⟩)] "c" [] (by simp [hτ]) (by simp)
    simp at hmem
  · have := h "b" (some ⟨"a", .locked, ∅⟩) (some ⟨"", .free, ∅⟩) (by simp [hτ]) (by simp)
    simp at this

end Yfs.Lock
