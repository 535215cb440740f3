import Yfs.Extents.Sole
import Yfs.Fs.Directory

/-!
# Extent stores under the file system client

The operations of `yfs_client` are written over any extent store. The results on them say what they need
of it: `ExtentOps.Stores` and `ExtentOps.Works` are in `Yfs.Fs.Directory`, and here are
`ExtentOps.Frames` for all extents, `ExtentOps.KeepsText` and `ExtentOps.Stays` for one directory. A map
of extents has them all (`mapOps`), and so has the extent client with its cache, when no other client
uses the extents (`clientOps`).
-/

namespace Yfs.Fs

open Yfs.Lib Yfs.Extents
open Yfs.Rpc (Bytes)

variable {σ : Type}

/-- `get` changes no extent, and `put` writes one extent. -/
structure ExtentOps.Frames (E : ExtentOps σ) (view : σ → Inum → Option Bytes) : Prop where
  get : ∀ s i, view (E.get s i).2.2 = view s
  put : ∀ s i d, ∃ s', E.put s i d = (.ok, s') ∧ view s' = Function.update (view s) i (some d)

/-- `text` is what `get` returns for the directory, until it is put. All calls may fail. -/
structure ExtentOps.KeepsText (E : ExtentOps σ) (parent : Inum) (text : σ → Option Bytes) : Prop where
  get : ∀ s, text (E.get s parent).2.2 = text s
  got : ∀ s, (E.get s parent).1 = .ok → text s = some (E.get s parent).2.1
  put : ∀ s d, text (E.put s parent d).2 = some d ∨ text (E.put s parent d).2 = text s
  put_other : ∀ s i d, i ≠ parent → text (E.put s i d).2 = text s
  remove_other : ∀ s i, i ≠ parent → text (E.remove s i).2 = text s

/-- The extent `i` can be read, and stays as it is, in the states `I`. -/
def ExtentOps.Stays (E : ExtentOps σ) (i : Inum) (buf : Bytes) (I : σ → Prop) : Prop :=
  ∀ s, I s → ∃ s', E.get s i = (.ok, buf, s') ∧ I s'

/-! ## A map -/

theorem mapOps_frames : mapOps.Frames id where
  get s i := by
    unfold mapOps
    dsimp only
    split <;> rfl
  put := mapOps_works.put

theorem mapOps_keeps (parent : Inum) : mapOps.KeepsText parent (· parent) where
  get s := congrFun (mapOps_frames.get s parent) parent
  got s h := by
    unfold mapOps at h ⊢
    dsimp only at h ⊢
    split at h
    · rename_i d hd
      simp [hd]
    · cases h
  put s d := .inl (Function.update_self ..)
  put_other s i d h := Function.update_of_ne (Ne.symm h) ..
  remove_other s i h := Function.update_of_ne (Ne.symm h) ..

theorem mapOps_stays (i : Inum) (buf : Bytes) : mapOps.Stays i buf (· i = some buf) := by
  intro s hs
  obtain ⟨s', hget, hview⟩ := mapOps_works.get s i buf hs
  exact ⟨s', hget, (congrFun hview i).trans hs⟩

/-! ## The extent client -/

/-- An extent client and its server, and what `time(NULL)` will return in the calls to come. -/
structure Client where
  copies : ExtentId → Copies
  times : Nat → Times

def Client.call (s : Client) (eid : ExtentId) (op : Op) : Answer × Client :=
  let (r, n) := op.call (s.copies eid) (s.times 0)
  (r, { copies := Function.update s.copies eid n, times := fun k => s.times (k + 1) })

/-- `extent_client`. -/
def clientOps : ExtentOps Client where
  get s i :=
    let (r, s) := s.call i .get
    (r.ret, r.buf, s)
  put s i d :=
    let (r, s) := s.call i (.put d)
    (r.ret, s)
  remove s i :=
    let (r, s) := s.call i .remove
    (r.ret, s)

/-- The contents of the extents. -/
def Client.view (s : Client) (i : Inum) : Option Bytes := (s.copies i).view

/-- What `get` returns. Unlike the contents it is still there after a `remove` that was not
flushed. -/
def kept (n : Copies) : Option Bytes :=
  match n.cache with
  | none => n.stored
  | some c => if c.valid ∨ c.dirty then some c.data else n.stored

def Client.text (i : Inum) (s : Client) : Option Bytes := kept (s.copies i)

section
variable {n : Copies} {t : Times}

theorem kept_blank (h : n.Blank) : kept n = n.stored := by
  unfold kept
  split
  · rfl
  · rename_i c hc
    simp [h c hc]

theorem kept_live {c : ExtentCache} (hc : n.cache = some c) (h : c.valid = true ∨ c.dirty = true) :
    kept n = some c.data := by
  unfold kept
  simp [hc, h]

/-- `get` returns what is kept, and leaves it. -/
theorem kept_get (n : Copies) (t : Times) :
    kept (Op.get.call n t).2 = kept n ∧
      ((Op.get.call n t).1.ret = .ok → kept n = some (Op.get.call n t).1.buf) := by
  rcases Copies.get_call n t with ⟨c, hc, hlive, hcall⟩ | ⟨hblank, ⟨-, hcall⟩ | hfetch⟩
  · rw [hcall]
    exact ⟨rfl, fun _ => kept_live hc hlive⟩
  · rw [hcall]
    exact ⟨rfl, fun h => by cases h⟩
  · obtain ⟨x, hx, hret, -, a, hcache, -⟩ := hfetch
    have hkept : kept n = some x.name := by
      rw [kept_blank hblank, Copies.stored, hx, Option.map_some]
    rw [kept_live hcache (.inl rfl), hret, hkept]
    exact ⟨rfl, fun _ => rfl⟩

/-- What is kept can be had. -/
theorem get_kept {d : Bytes} (h : kept n = some d) (t : Times) : (Op.get.call n t).1.ret = .ok := by
  rcases Copies.get_call n t with ⟨c, -, -, hcall⟩ | ⟨hblank, ⟨hnone, -⟩ | ⟨x, -, hret, -⟩⟩
  · rw [hcall]
  · rw [kept_blank hblank, Copies.stored, hnone] at h
    cases h
  · rw [hret]

theorem view_get (n : Copies) (t : Times) : (Op.get.call n t).2.view = n.view := by
  rcases Copies.get_call n t with ⟨c, -, -, hcall⟩ | ⟨hblank, ⟨-, hcall⟩ | hfetch⟩
  · rw [hcall]
  · rw [hcall]
  · obtain ⟨x, hx, -, -, a, hcache, -⟩ := hfetch
    rw [Copies.Blank.view hblank, Copies.stored, hx, Copies.view, hcache]
    rfl

/-- `put` writes into the cache. -/
theorem put_call (n : Copies) (t : Times) (d : Bytes) :
    ((Op.put d).call n t).1.ret = .ok ∧
      ∃ c, ((Op.put d).call n t).2.cache = some c ∧ c.valid = true ∧ c.data = d :=
  ⟨rfl, _, rfl, rfl, rfl⟩

/-- What is there is kept. -/
theorem kept_of_view {d : Bytes} (h : n.view = some d) : kept n = some d := by
  unfold Copies.view at h
  unfold kept
  cases hc : n.cache with
  | none => simpa [hc] using h
  | some c =>
      simp only [hc] at h ⊢
      split at h
      · rename_i hvalid
        simp_all
      · split at h
        · cases h
        · simp_all

end

/-- A call on an extent leaves the others. -/
theorem Client.call_other (s : Client) {eid i : ExtentId} (op : Op) (h : eid ≠ i) :
    (s.call eid op).2.copies i = s.copies i :=
  Function.update_of_ne (Ne.symm h) _ _

theorem Client.call_self (s : Client) (eid : ExtentId) (op : Op) :
    (s.call eid op).2.copies eid = (op.call (s.copies eid) (s.times 0)).2 :=
  Function.update_self ..

theorem clientOps_frames : clientOps.Frames Client.view where
  get s i := by
    funext j
    by_cases h : i = j
    · subst h
      show Copies.view ((s.call i .get).2.copies i) = _
      rw [s.call_self, view_get]
      rfl
    · exact congrArg Copies.view (s.call_other .get h)
  put s i d := by
    refine ⟨_, rfl, ?_⟩
    funext j
    by_cases h : i = j
    · subst h
      obtain ⟨c, hc, hvalid, hdata⟩ := (put_call (s.copies i) (s.times 0) d).2
      show Copies.view ((s.call i (.put d)).2.copies i) = _
      rw [Function.update_self, s.call_self, Copies.view, hc]
      simp [hvalid, hdata]
    · rw [Function.update_of_ne (Ne.symm h)]
      exact congrArg Copies.view (s.call_other (.put d) h)

theorem clientOps_keeps (parent : Inum) : clientOps.KeepsText parent (Client.text parent) where
  get s := by
    show kept ((s.call parent .get).2.copies parent) = _
    rw [s.call_self]
    exact (kept_get _ _).1
  got s h := (kept_get _ _).2 h
  put s d := by
    obtain ⟨c, hc, hvalid, hdata⟩ := (put_call (s.copies parent) (s.times 0) d).2
    show kept ((s.call parent (.put d)).2.copies parent) = _ ∨ _
    rw [s.call_self, kept_live hc (.inl hvalid), hdata]
    exact .inl rfl
  put_other s i d h := congrArg kept (s.call_other (.put d) h)
  remove_other s i h := congrArg kept (s.call_other .remove h)

theorem clientOps_stays (i : Inum) (buf : Bytes) :
    clientOps.Stays i buf (Client.text i · = some buf) := by
  intro s hs
  have hret : (clientOps.get s i).1 = .ok := get_kept hs (s.times 0)
  have hbuf := (clientOps_keeps i).got s hret
  rw [hs] at hbuf
  refine ⟨(clientOps.get s i).2.2, ?_, ((clientOps_keeps i).get s).trans hs⟩
  rw [Option.some.inj hbuf, ← hret]

/-- The extents are in the cache of the client, or at its server. -/
theorem clientOps_stores : clientOps.Stores Client.view where
  get s i d h := by
    have hkept : Client.text i s = some d := kept_of_view h
    have hret : (clientOps.get s i).1 = .ok := get_kept hkept (s.times 0)
    have hbuf := (clientOps_keeps i).got s hret
    rw [hkept] at hbuf
    refine ⟨(clientOps.get s i).2.2, ?_, clientOps_frames.get s i⟩
    rw [Option.some.inj hbuf, ← hret]
  put := clientOps_frames.put

/-- The client has an entry for the extent, in whatever state. -/
def Client.Cached (s : Client) (i : Inum) : Prop := (s.copies i).cache.isSome = true

/-- No call takes an entry away. -/
theorem Client.Cached.call {s : Client} {j : Inum} {op : Op} (h : s.Cached j)
    (hop : ∀ n t, n.cache.isSome = true → (op.call n t).2.cache.isSome = true) (i : Inum) :
    (s.call i op).2.Cached j := by
  by_cases hij : i = j
  · subst hij
    unfold Client.Cached
    rw [s.call_self]
    exact hop _ _ h
  · unfold Client.Cached
    rw [s.call_other op hij]
    exact h

theorem cached_get (n : Copies) (t : Times) (h : n.cache.isSome = true) :
    (Op.get.call n t).2.cache.isSome = true := by
  rcases Copies.get_call n t with ⟨c, -, -, hcall⟩ | ⟨-, ⟨-, hcall⟩ | ⟨x, -, -, -, a, hcache, -⟩⟩
  · rw [hcall]
    exact h
  · rw [hcall]
    exact h
  · rw [hcache]
    rfl

/-- `remove` marks the entry of an extent, and needs one. -/
theorem remove_call {n : Copies} (h : n.cache.isSome = true) (t : Times) :
    (Op.remove.call n t).1.ret = .ok ∧ (Op.remove.call n t).2.view = none ∧
      (Op.remove.call n t).2.cache.isSome = true := by
  obtain ⟨cache, server⟩ := n
  cases cache with
  | none => cases h
  | some c => exact ⟨rfl, rfl, rfl⟩

/-- An extent that has been put can be removed. One that is only at the server cannot. -/
theorem clientOps_works : clientOps.Works Client.view Client.Cached where
  toStores := clientOps_stores
  remove s i h := by
    obtain ⟨hret, hview, -⟩ := remove_call h (s.times 0)
    refine ⟨(clientOps.remove s i).2, by rw [← hret]; rfl, ?_⟩
    funext j
    by_cases hij : i = j
    · subst hij
      rw [Function.update_self, ← hview]
      exact congrArg Copies.view (s.call_self i .remove)
    · rw [Function.update_of_ne (Ne.symm hij)]
      exact congrArg Copies.view (s.call_other .remove hij)
  known_get s i j h := h.call cached_get i
  known_put s i d j h := by
    rcases h with rfl | h
    · show Option.isSome ((s.call j (.put d)).2.copies j).cache = true
      rw [s.call_self]
      rfl
    · have hput : ∀ n t, n.cache.isSome = true → ((Op.put d).call n t).2.cache.isSome = true :=
        fun _ _ _ => rfl
      exact h.call hput i
  known_remove s i j h := by
    have hremove : ∀ n t, n.cache.isSome = true → (Op.remove.call n t).2.cache.isSome = true :=
      fun _ t hn => (remove_call hn t).2.2
    exact h.call hremove i

end Yfs.Fs
