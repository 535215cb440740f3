import Yfs.Lib.Insert
import Yfs.Rpc.Header

/-!
# The reply window of a server

For each client the server keeps a list of records, one per xid it has seen, in ascending order. A
record is either in progress or holds the reply. `WindowOk` is the invariant of such a list, and
`entry w xid` the view of it as a map from xids to records.

The loop that is meant to drop the acknowledged replies never drops anything: it stops at a record
that is not in progress or has no reply, and every record is one or the other (`trim_eq`).
-/

namespace Yfs.Rpc

open Yfs.Lib

/-- `reply_t`. The window never looks into a reply: `β` is what `buf` and `sz` hold together. -/
structure ReplyT (β : Type := Reply) where
  xid : UInt32
  /-- Despite its comment in the source, set while the reply is *not* there. -/
  cbPresent : Bool
  buf : Option β
  deriving DecidableEq, Repr

/-- `rpcstate_t`, with the reply that DONE comes with. -/
inductive RpcState (β : Type := Reply) where
  | new
  | inprogress
  | done (b : Option β)
  | forgotten
  deriving DecidableEq, Repr

variable {β : Type}

/-- The trimming loop, together with the `erase` after it. -/
def trim (xidRep : UInt32) (window : List (ReplyT β)) : List (ReplyT β) :=
  if window.head?.any (·.xid ≤ xidRep) then
    window.dropWhile fun r => r.xid ≤ xidRep && !(!r.cbPresent || r.buf.isNone)
  else window

/-- Insert the record of a new request. -/
def insertNew (xid : UInt32) (window : List (ReplyT β)) : List (ReplyT β) :=
  window.orderedInsert (·.xid < ·.xid) { xid, cbPresent := true, buf := none }

/-- `rpcs::checkduplicate_and_update`, without the assertion. -/
def checkduplicateAndUpdate (window : List (ReplyT β)) (xid xidRep : UInt32) :
    List (ReplyT β) × RpcState β :=
  let window := trim xidRep window
  if window.head?.any (·.xid > xid) then (window, .forgotten)
  else
    let seen := if window.getLast?.any (·.xid ≥ xid) then window.find? (·.xid = xid) else none
    match seen with
    | some r => (window, if r.cbPresent then .inprogress else .done r.buf)
    | none => (insertNew xid window, .new)

/-- `rpcs::add_reply`, without the assertion. -/
def addReply (xid : UInt32) (b : β) : List (ReplyT β) → List (ReplyT β)
  | [] => []
  | r :: rs =>
      if r.xid = xid then { r with buf := some b, cbPresent := false } :: rs
      else r :: addReply xid b rs

/-! ## The window as a map -/

structure WindowOk (w : List (ReplyT β)) : Prop where
  sorted : w.Pairwise (·.xid < ·.xid)
  record : ∀ r ∈ w, r.cbPresent = true ↔ r.buf = none

/-- The record of an xid. -/
def entry (w : List (ReplyT β)) (xid : UInt32) : Option (ReplyT β) := w.find? (·.xid = xid)

theorem windowOk_nil : WindowOk ([] : List (ReplyT β)) := ⟨by simp, by simp⟩

@[simp] theorem entry_nil (xid : UInt32) : entry ([] : List (ReplyT β)) xid = none := rfl

variable {w : List (ReplyT β)} {xid xidRep : UInt32} {r : ReplyT β} {b : β}

theorem entry_eq_none : entry w xid = none ↔ ∀ r ∈ w, r.xid ≠ xid := by
  simp [entry]

/-- In a sorted window an xid has one record. -/
theorem WindowOk.entry_eq_some (h : WindowOk w) :
    entry w xid = some r ↔ r ∈ w ∧ r.xid = xid := by
  constructor
  · intro he
    exact ⟨List.mem_of_find?_eq_some he, by simpa using List.find?_some he⟩
  · rintro ⟨hr, rfl⟩
    have hs := h.sorted
    clear h
    induction w with
    | nil => cases hr
    | cons a w ih =>
        obtain ⟨ha, hs⟩ := List.pairwise_cons.mp hs
        rcases List.mem_cons.mp hr with rfl | hr
        · simp [entry]
        · have : a.xid ≠ r.xid := by grind
          simpa [entry, List.find?_cons, this] using ih hr hs

theorem WindowOk.entry_cb (h : WindowOk w) (he : entry w xid = some r) :
    r.xid = xid ∧ (r.cbPresent = true ↔ r.buf = none) := by
  obtain ⟨hr, hx⟩ := h.entry_eq_some.mp he
  exact ⟨hx, h.record r hr⟩

/-! ## `checkduplicate_and_update` -/

/-- Nothing is ever trimmed. -/
theorem trim_eq (h : WindowOk w) : trim xidRep w = w := by
  unfold trim
  split
  · cases w with
    | nil => rfl
    | cons r w =>
        -- the loop breaks at once: no record is in progress and has a reply
        have := h.record r (by simp)
        rw [List.dropWhile_cons_of_neg]
        cases hb : r.buf <;> simp_all
  · rfl

theorem mem_insertNew : r ∈ insertNew xid w ↔ r = ⟨xid, true, none⟩ ∨ r ∈ w := by
  simp [insertNew, (List.perm_orderedInsert _ _ w).mem_iff]

theorem WindowOk.insertNew (h : WindowOk w) (he : entry w xid = none) :
    WindowOk (Rpc.insertNew xid w) where
  sorted := by
    refine pairwise_orderedInsert (R := fun a b : ReplyT β => a.xid < b.xid)
      (fun a b c h₁ h₂ => UInt32.lt_trans h₁ h₂) h.sorted fun b hb => ?_
    have := entry_eq_none.mp he b hb
    grind
  record := by
    intro r hr
    rcases mem_insertNew.mp hr with rfl | hr
    · simp
    · exact h.record r hr

theorem WindowOk.entry_insertNew (h : WindowOk w) (he : entry w xid = none) (y : UInt32) :
    entry (Rpc.insertNew xid w) y = if y = xid then some ⟨xid, true, none⟩ else entry w y := by
  have h' := h.insertNew he
  split
  · rename_i hy
    subst hy
    exact h'.entry_eq_some.mpr ⟨mem_insertNew.mpr (.inl rfl), rfl⟩
  · rename_i hy
    apply Option.ext
    intro r
    rw [h'.entry_eq_some, h.entry_eq_some, mem_insertNew]
    constructor
    · rintro ⟨rfl | hr, rfl⟩
      · exact absurd rfl hy
      · exact ⟨hr, rfl⟩
    · rintro ⟨hr, rfl⟩
      exact ⟨.inr hr, rfl⟩

/-- A record lies between the first and the last one. -/
theorem WindowOk.bounds (h : WindowOk w) (hr : r ∈ w) :
    w.head?.any (·.xid > r.xid) = false ∧ w.getLast?.any (·.xid ≥ r.xid) = true := by
  constructor
  · cases w with
    | nil => cases hr
    | cons a w =>
        have := (List.pairwise_cons.mp h.sorted).1
        simp only [List.head?_cons, Option.any_some, decide_eq_false_iff_not]
        grind
  · obtain rfl | ⟨w, z, rfl⟩ := List.eq_nil_or_concat w
    · cases hr
    · have hlt : ∀ a ∈ w, a.xid < z.xid := by
        have := (List.pairwise_append.mp (List.concat_eq_append ▸ h.sorted)).2.2
        simpa using this
      simp only [List.concat_eq_append, List.getLast?_append, List.getLast?_singleton,
        Option.some_or, Option.any_some, decide_eq_true_eq] at hr ⊢
      grind

/-- What a request meets: a record of its own, which stays as it is and tells the answer, or none.
Without a record the request is new, or too old. -/
theorem WindowOk.check (h : WindowOk w) (xid xidRep : UInt32) :
    (∃ r, entry w xid = some r ∧ checkduplicateAndUpdate w xid xidRep =
        (w, if r.cbPresent then .inprogress else .done r.buf)) ∨
    (entry w xid = none ∧ checkduplicateAndUpdate w xid xidRep = (w, .forgotten)) ∨
    (entry w xid = none ∧
      checkduplicateAndUpdate w xid xidRep = (Rpc.insertNew xid w, .new)) := by
  simp only [checkduplicateAndUpdate, trim_eq h]
  cases he : entry w xid with
  | some r =>
      -- the two shortcuts for xids outside of the window are not taken
      obtain ⟨hr, rfl⟩ := h.entry_eq_some.mp he
      obtain ⟨h₁, h₂⟩ := h.bounds hr
      refine .inl ⟨r, rfl, ?_⟩
      rw [entry] at he
      simp [h₁, h₂, he]
  | none =>
      refine .inr ?_
      split
      · exact .inl ⟨rfl, rfl⟩
      · rw [entry] at he
        refine .inr ⟨rfl, ?_⟩
        simp [he]

/-- The shortcut for old requests is taken if all xids in the window are larger. -/
theorem WindowOk.front_gt (h : WindowOk w) :
    w.head?.any (·.xid > xid) = true ↔ w ≠ [] ∧ ∀ r ∈ w, xid < r.xid := by
  cases w with
  | nil => simp
  | cons a w =>
      have hlt := (List.pairwise_cons.mp h.sorted).1
      simp only [List.head?_cons, Option.any_some, decide_eq_true_eq, ne_eq, reduceCtorEq,
        not_false_eq_true, true_and, List.forall_mem_cons]
      constructor
      · intro ha
        exact ⟨ha, fun r hr => UInt32.lt_trans ha (hlt r hr)⟩
      · intro ha
        exact ha.1

/-- Without a record of its own a request is forgotten if all xids in the window are larger, and new
otherwise. -/
theorem WindowOk.check_none (h : WindowOk w) (he : entry w xid = none) :
    checkduplicateAndUpdate w xid xidRep =
      if w.head?.any (·.xid > xid) then (w, .forgotten) else (Rpc.insertNew xid w, .new) := by
  unfold entry at he
  simp [checkduplicateAndUpdate, trim_eq h, he]

/-! ## `add_reply` -/

/-- With one record per xid, the record found first is the only one. -/
theorem WindowOk.addReply_eq (h : WindowOk w) : addReply xid b w =
    w.map fun r => if r.xid = xid then { r with buf := some b, cbPresent := false } else r := by
  have hs := h.sorted
  clear h
  induction w with
  | nil => rfl
  | cons a w ih =>
      obtain ⟨ha, hs⟩ := List.pairwise_cons.mp hs
      simp only [Rpc.addReply, List.map_cons]
      split
      · rename_i hx
        have hrest : ∀ r ∈ w, r.xid ≠ xid := by grind
        congr 1
        conv_lhs => rw [← List.map_id w]
        exact List.map_congr_left fun r hr => by simp [hrest r hr]
      · rw [ih hs]

theorem WindowOk.addReply (h : WindowOk w) : WindowOk (Rpc.addReply xid b w) := by
  rw [h.addReply_eq]
  constructor
  · rw [List.pairwise_map]
    refine h.sorted.imp fun {r r'} hlt => ?_
    split <;> split <;> exact hlt
  · intro r hr
    obtain ⟨r', hr', rfl⟩ := List.mem_map.mp hr
    split
    · simp
    · exact h.record r' hr'

theorem WindowOk.entry_addReply (h : WindowOk w) (he : entry w xid = some r) (y : UInt32) :
    entry (Rpc.addReply xid b w) y = if y = xid then some ⟨xid, false, some b⟩ else entry w y := by
  have hkey : ((fun r : ReplyT β => decide (r.xid = y)) ∘ fun r =>
      if r.xid = xid then { r with buf := some b, cbPresent := false } else r) =
        fun r => decide (r.xid = y) := by
    funext r
    simp only [Function.comp_apply]
    split <;> rfl
  rw [h.addReply_eq, entry, List.find?_map, hkey]
  change (entry w y).map _ = _
  split
  · rename_i hy
    rw [hy, he, Option.map_some, if_pos (h.entry_cb he).1, (h.entry_cb he).1]
  · rename_i hy
    cases hr : entry w y with
    | none => rfl
    | some r => simp [(h.entry_cb hr).1, hy]

end Yfs.Rpc
