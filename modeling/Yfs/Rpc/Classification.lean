import Yfs.Lib.System
import Yfs.Rpc.ReplyWindow

/-!
# What the reply windows answer, over whole histories

The reply windows of all clients, as a transition system of their own: requests come in any order
and any number of times, each with an xid beyond its xid_rep, and `add_reply` is called once for
each request that was classified as new. `Classifies` says what the classification of a request should
be, by the history alone, and `Trimmed` what an acknowledgement should do to the window.

* A request is classified as it should be unless it is the first one of its call, nothing at or
  beyond its xid was acknowledged, and every call seen so far has a larger xid: then it is refused
  as forgotten (`classification_exact_iff`). Requests of one client are dispatched by many threads,
  so the first one in need not have the smallest xid (`first_request_forgotten`).
* An acknowledgement does what it should only if there is nothing to do: no reply is ever dropped
  or freed (`acked_trimmed_iff`, `acked_reply_kept`).
-/

namespace Yfs.Rpc

open Yfs.Lib Function

/-- The reply windows, and the requests that were classified as new and have no reply yet. -/
structure Windows (β : Type) where
  window : UInt32 → List (ReplyT β)
  owed : List (UInt32 × UInt32)

inductive WindowAction (β : Type) where
  | check (clt xid xidRep : UInt32)
  | reply (clt xid : UInt32) (b : β)

inductive WindowEvent (β : Type) where
  /-- `checkduplicate_and_update` returns `st`. -/
  | checked (clt xid xidRep : UInt32) (st : RpcState β)
  /-- `add_reply` is called. -/
  | replied (clt xid : UInt32) (b : β)
  deriving DecidableEq, Repr

variable {β : Type}

namespace Windows

def new : Windows β := { window := fun _ => [], owed := [] }

/-- Who still has to call `add_reply` after a classification. -/
def owing (clt xid : UInt32) (owed : List (UInt32 × UInt32)) :
    RpcState β → List (UInt32 × UInt32)
  | .new => (clt, xid) :: owed
  | _ => owed

def next (s : Windows β) : WindowAction β → Option (Windows β × List (WindowEvent β))
  | .check clt xid xidRep =>
      if xidRep < xid then
        let (w, st) := checkduplicateAndUpdate (s.window clt) xid xidRep
        some ({ window := update s.window clt w, owed := owing clt xid s.owed st },
          [.checked clt xid xidRep st])
      else none
  | .reply clt xid b =>
      if (clt, xid) ∈ s.owed then
        some ({ window := update s.window clt (addReply xid b (s.window clt))
                owed := s.owed.erase (clt, xid) }, [.replied clt xid b])
      else none

end Windows

/-- The windows of one server instance. -/
def windowSystem (β : Type) : System (Windows β) (WindowAction β) (WindowEvent β) where
  init s := s = .new
  next := Windows.next

/-! ## What the history says -/

/-- The xids of client `clt` that were classified as new. -/
def news (clt : UInt32) (τ : List (WindowEvent β)) : List UInt32 :=
  τ.filterMap fun
    | .checked c xid _ .new => if c = clt then some xid else none
    | _ => none

/-- The replies that were added for a call. -/
def replies (clt xid : UInt32) (τ : List (WindowEvent β)) : List β :=
  τ.filterMap fun
    | .replied c x b => if c = clt ∧ x = xid then some b else none
    | _ => none

/-- Client `clt` has acknowledged `xid`. -/
def Acked (clt xid : UInt32) (τ : List (WindowEvent β)) : Prop :=
  ∃ y r st, .checked clt y r st ∈ τ ∧ xid ≤ r

/-- What the classification `st` of a request should be after the events `τ`. -/
structure Classifies (τ : List (WindowEvent β)) (clt xid : UInt32) (st : RpcState β) : Prop where
  inprogress : st = .inprogress ↔ xid ∈ news clt τ ∧ replies clt xid τ = []
  done : ∀ b, st = .done b → ∃ b', b = some b' ∧ replies clt xid τ = [b']
  forgotten : st = .forgotten → Acked clt xid τ
  new : st = .new → xid ∉ news clt τ
  otherwise : xid ∉ news clt τ → ¬ Acked clt xid τ → st = .new

/-- The call is not acknowledged, and every call that came in has a larger xid. -/
def Overtaken (τ : List (WindowEvent β)) (clt xid : UInt32) : Prop :=
  news clt τ ≠ [] ∧ (∀ y ∈ news clt τ, xid < y) ∧ ¬ Acked clt xid τ

section
variable {τ es : List (WindowEvent β)} {clt xid c x r : UInt32} {st : RpcState β} {b : β}

@[simp] theorem news_append : news clt (τ ++ es) = news clt τ ++ news clt es := by simp [news]

@[simp] theorem replies_append :
    replies clt xid (τ ++ es) = replies clt xid τ ++ replies clt xid es := by simp [replies]

@[simp] theorem news_new :
    news clt [.checked c x r (.new : RpcState β)] = if c = clt then [x] else [] := by
  unfold news
  split <;> simp_all

theorem news_checked (h : st ≠ .new) : news clt [.checked c x r st] = [] := by
  cases st <;> simp_all [news]

@[simp] theorem news_replied : news clt [.replied c x b] = [] := rfl

@[simp] theorem replies_checked : replies clt xid [.checked c x r st] = [] := rfl

@[simp] theorem replies_replied :
    replies clt xid [.replied c x b] = if c = clt ∧ x = xid then [b] else [] := by
  unfold replies
  split <;> simp_all

end

/-! ## The windows follow the history -/

/-- The record of a call. -/
def Windows.record (s : Windows β) (clt xid : UInt32) : Option (ReplyT β) :=
  entry (s.window clt) xid

/-- The windows of `s` are those of the history `τ`. -/
structure Windows.Tracks (s : Windows β) (τ : List (WindowEvent β)) : Prop where
  ok : ∀ clt, WindowOk (s.window clt)
  nodup : s.owed.Nodup
  seen : ∀ clt xid, xid ∈ news clt τ ↔ ∃ r, s.record clt xid = some r
  answered : ∀ clt xid, replies clt xid τ = ((s.record clt xid).bind (·.buf)).toList
  owed : ∀ clt xid, (clt, xid) ∈ s.owed ↔ s.record clt xid = some ⟨xid, true, none⟩

namespace Windows.Tracks

variable {s : Windows β} {τ : List (WindowEvent β)} {clt xid xidRep : UInt32} {b : β}

theorem initial : (Windows.new : Windows β).Tracks [] where
  ok _ := windowOk_nil
  nodup := List.nodup_nil
  seen _ _ := by simp [news, Windows.new, Windows.record]
  answered _ _ := by simp [replies, Windows.new, Windows.record]
  owed _ _ := by simp [Windows.new, Windows.record]

/-- A request that is not new leaves the windows as they are. -/
theorem unchanged (h : s.Tracks τ) {st : RpcState β} (hst : st ≠ .new) :
    ({ window := update s.window clt (s.window clt),
       owed := Windows.owing clt xid s.owed st } : Windows β).Tracks
      (τ ++ [.checked clt xid xidRep st]) := by
  have howing : Windows.owing clt xid s.owed st = s.owed := by
    cases st <;> first | rfl | exact absurd rfl hst
  rw [update_eq_self, howing]
  refine ⟨h.ok, h.nodup, fun c x => ?_, fun c x => ?_, h.owed⟩
  · rw [news_append, news_checked hst, List.append_nil]
    exact h.seen c x
  · rw [replies_append, replies_checked, List.append_nil]
    exact h.answered c x

/-- The record of one call becomes `e`, and the history says so. -/
theorem set (h : s.Tracks τ) {w : List (ReplyT β)} {e : ReplyT β} {owed : List (UInt32 × UInt32)}
    {es : List (WindowEvent β)} (hw : WindowOk w)
    (hentry : ∀ y, entry w y = if y = xid then some e else entry (s.window clt) y)
    (hnodup : owed.Nodup)
    (hnews : ∀ c x, x ∈ news c es ↔ c = clt ∧ x = xid ∧ s.record clt xid = none)
    (hreplies : ∀ c x, replies c x (τ ++ es) =
      if c = clt ∧ x = xid then e.buf.toList else replies c x τ)
    (howed : ∀ c x, (c, x) ∈ owed ↔
      if c = clt ∧ x = xid then e = ⟨xid, true, none⟩ else (c, x) ∈ s.owed) :
    ({ window := update s.window clt w, owed } : Windows β).Tracks (τ ++ es) := by
  have hrecord : ∀ c x, ({ window := update s.window clt w, owed } : Windows β).record c x =
      if c = clt ∧ x = xid then some e else s.record c x := by
    intro c x
    by_cases hc : c = clt
    · simp [Windows.record, hc, hentry]
    · simp [Windows.record, hc]
  constructor
  case ok =>
    intro c
    by_cases hc : c = clt
    · simpa [hc] using hw
    · simpa [hc] using h.ok c
  case nodup => exact hnodup
  case seen =>
    intro c x
    rw [news_append, List.mem_append, h.seen, hnews, hrecord]
    by_cases hk : c = clt ∧ x = xid
    · obtain ⟨rfl, rfl⟩ := hk
      cases s.record c x <;> simp
    · rw [if_neg hk]
      grind
  case answered =>
    intro c x
    rw [hreplies, hrecord]
    split
    · rfl
    · exact h.answered c x
  case owed =>
    intro c x
    rw [howed, hrecord]
    split
    · rename_i hk
      simp [hk.2]
    · exact h.owed c x

/-- A new request gets a record. -/
theorem insertNew (h : s.Tracks τ) (he : s.record clt xid = none) :
    ({ window := update s.window clt (Rpc.insertNew xid (s.window clt)),
       owed := (clt, xid) :: s.owed } : Windows β).Tracks
      (τ ++ [.checked clt xid xidRep .new]) := by
  have hnotOwed : (clt, xid) ∉ s.owed := by simp [h.owed, he]
  refine h.set ((h.ok clt).insertNew he) ((h.ok clt).entry_insertNew he)
    (List.nodup_cons.mpr ⟨hnotOwed, h.nodup⟩) (fun c x => ?_) (fun c x => ?_) fun c x => ?_
  · rw [news_new]
    by_cases hc : clt = c
    · subst hc
      simp [he]
    · simp [hc, Ne.symm hc]
  · rw [replies_append, replies_checked, List.append_nil, h.answered]
    split
    · rename_i hk
      rw [hk.1, hk.2, he]
      rfl
    · rfl
  · rw [List.mem_cons, Prod.mk.injEq]
    split <;> simp_all

/-- The reply goes into the record. -/
theorem addReply (h : s.Tracks τ) (howed : (clt, xid) ∈ s.owed) :
    ({ window := update s.window clt (Rpc.addReply xid b (s.window clt)),
       owed := s.owed.erase (clt, xid) } : Windows β).Tracks (τ ++ [.replied clt xid b]) := by
  have he := (h.owed clt xid).mp howed
  refine h.set (h.ok clt).addReply ((h.ok clt).entry_addReply he) (h.nodup.erase _)
    (fun c x => ?_) (fun c x => ?_) fun c x => ?_
  · simp [he]
  · rw [replies_append, replies_replied, h.answered]
    by_cases hk : c = clt ∧ x = xid
    · simp [hk, he]
    · rw [if_neg hk, if_neg fun h' => hk ⟨h'.1.symm, h'.2.symm⟩, List.append_nil]
  · rw [h.nodup.mem_erase_iff, Ne, Prod.mk.injEq]
    split <;> simp_all

end Windows.Tracks

/-! ## The classification -/

section
variable {w : List (ReplyT β)} {s : Windows β} {τ : List (WindowEvent β)} {clt xid xidRep : UInt32}

/-- The calls that came in are those with a record. -/
theorem Windows.Tracks.overtaken (h : s.Tracks τ) : Overtaken τ clt xid ↔
    (s.window clt).head?.any (·.xid > xid) = true ∧ ¬ Acked clt xid τ := by
  have hmem : ∀ y, y ∈ news clt τ ↔ ∃ r ∈ s.window clt, r.xid = y := by
    intro y
    rw [h.seen]
    exact exists_congr fun r => (h.ok clt).entry_eq_some
  have hne : news clt τ = [] ↔ s.window clt = [] := by
    rw [List.eq_nil_iff_forall_not_mem, List.eq_nil_iff_forall_not_mem]
    simp [hmem]
  unfold Overtaken
  rw [(h.ok clt).front_gt, Ne, hne, and_assoc]
  simp [hmem]

theorem Windows.Tracks.exact_iff (h : s.Tracks τ) :
    Classifies τ clt xid (checkduplicateAndUpdate (s.window clt) xid xidRep).2 ↔
      ¬ Overtaken τ clt xid := by
  have hreplies := h.answered clt xid
  unfold Windows.record at hreplies
  rw [h.overtaken]
  rcases (h.ok clt).check xid xidRep with ⟨r, he, hc⟩ | hnone
  · -- a call that came in before: its record tells
    have hnew := (h.seen clt xid).mpr ⟨r, he⟩
    have hr := (h.ok clt).entry_cb he
    have hfront := ((h.ok clt).bounds ((h.ok clt).entry_eq_some.mp he).1).1
    rw [hr.1] at hfront
    rw [he, Option.bind_some] at hreplies
    rw [hc, hfront]
    refine iff_of_true ?_ (by simp)
    cases hb : r.buf with
    | none =>
        rw [hb] at hreplies hr
        rw [if_pos (hr.2.mpr rfl)]
        exact ⟨by simp [hnew, hreplies], by simp, by simp, by simp, by simp [hnew]⟩
    | some b =>
        have hcb : r.cbPresent ≠ true := by simp [hr.2, hb]
        rw [hb] at hreplies
        rw [if_neg hcb]
        exact ⟨by simp [hreplies], by simp [hreplies], by simp, by simp, by simp [hnew]⟩
  · -- the first request of its call
    have he : entry (s.window clt) xid = none := by rcases hnone with h | h <;> exact h.1
    have hnew : xid ∉ news clt τ := by simp [h.seen, Windows.record, he]
    rw [(h.ok clt).check_none he]
    split
    · rename_i hfront
      constructor
      · rintro hexact ⟨-, hno⟩
        exact hno (hexact.forgotten rfl)
      · intro hnot
        have hacked : Acked clt xid τ := not_not.mp fun hno => hnot ⟨hfront, hno⟩
        exact ⟨by simp [hnew], by simp, fun _ => hacked, by simp, fun _ hno => absurd hacked hno⟩
    · rename_i hfront
      refine iff_of_true ?_ fun hover => hfront hover.1
      exact ⟨by simp [hnew], by simp, by simp, fun _ => hnew, fun _ _ => rfl⟩

end

/-- The verdict on a classification, by the history before it. -/
def ClassifiedRight (pre : List (WindowEvent β)) : WindowEvent β → Prop
  | .checked clt xid _ st => Classifies pre clt xid st ↔ ¬ Overtaken pre clt xid
  | _ => True

theorem Windows.Tracks.next {s s' : Windows β} {τ es : List (WindowEvent β)} {a : WindowAction β}
    (h : s.Tracks τ) (hn : s.next a = some (s', es)) :
    s'.Tracks (τ ++ es) ∧ System.Each (fun pre => ClassifiedRight (τ ++ pre)) es := by
  cases a with
  | check clt xid xidRep =>
      simp only [Windows.next] at hn
      split at hn
      · obtain ⟨rfl, rfl⟩ := Prod.ext_iff.mp (Option.some.inj hn)
        refine ⟨?_, System.each_singleton ?_⟩
        · rcases (h.ok clt).check xid xidRep with ⟨r, -, hc⟩ | ⟨-, hc⟩ | ⟨he, hc⟩
          · rw [hc]
            exact h.unchanged (by split <;> simp)
          · rw [hc]
            exact h.unchanged (by simp)
          · rw [hc]
            exact h.insertNew he
        · rw [List.append_nil]
          exact h.exact_iff
      · cases hn
  | reply clt xid b =>
      simp only [Windows.next] at hn
      split at hn
      · obtain ⟨rfl, rfl⟩ := Prod.ext_iff.mp (Option.some.inj hn)
        exact ⟨h.addReply ‹_›, System.each_singleton trivial⟩
      · cases hn

theorem windows_run {s : Windows β} {τ : List (WindowEvent β)} (hrun : (windowSystem β).Run τ s) :
    s.Tracks τ ∧ System.Each ClassifiedRight τ := by
  refine hrun.invariant (I := fun τ s => s.Tracks τ ∧ System.Each ClassifiedRight τ) ?_ ?_
  · rintro s rfl
    exact ⟨.initial, System.each_nil⟩
  · intro τ s a s' es ih hn
    obtain ⟨h', hes⟩ := ih.1.next hn
    exact ⟨h', ih.2.append hes⟩

/-- In every history, a request is classified exactly as the history says if and only if it was not
overtaken by all the calls that came in before it. -/
theorem classification_exact_iff {s : Windows β} {τ pre post : List (WindowEvent β)}
    {clt xid xidRep : UInt32} {st : RpcState β} (hrun : (windowSystem β).Run τ s)
    (hτ : τ = pre ++ .checked clt xid xidRep st :: post) :
    Classifies pre clt xid st ↔ ¬ Overtaken pre clt xid :=
  (windows_run hrun).2 pre _ post hτ

/-- Two requests in the order of their xids. -/
theorem classification_exact_in_order :
    ∃ τ s, (windowSystem (Bytes × Int32)).Run τ s ∧
      τ = [.checked 7 1 0 .new, .checked 7 2 0 .new] ∧
      (Classifies [.checked 7 1 0 .new] 7 2 (.new : RpcState (Bytes × Int32)) ↔
        ¬ Overtaken [.checked 7 1 0 (.new : RpcState (Bytes × Int32))] 7 2) := by
  obtain ⟨τ, s, hrun, hτ⟩ := System.exists_run (S := windowSystem (Bytes × Int32)) (s := .new)
    (p := fun τ _ => τ = [.checked 7 1 0 .new, .checked 7 2 0 .new])
    [.check 7 1 0, .check 7 2 0] rfl (by decide)
  exact ⟨τ, s, hrun, hτ, classification_exact_iff hrun hτ⟩

/-- Two requests of a new client, dispatched in the wrong order: the one with xid 1 is refused,
though nothing was acknowledged and it never came in before. -/
theorem first_request_forgotten :
    ∃ τ s, (windowSystem (Bytes × Int32)).Run τ s ∧
      τ = [.checked 7 2 0 .new, .checked 7 1 0 .forgotten] ∧
      ¬ Classifies [.checked 7 2 0 .new] 7 1 (.forgotten : RpcState (Bytes × Int32)) := by
  obtain ⟨τ, s, hrun, hτ⟩ := System.exists_run (S := windowSystem (Bytes × Int32)) (s := .new)
    (p := fun τ _ => τ = [.checked 7 2 0 .new, .checked 7 1 0 .forgotten])
    [.check 7 2 0, .check 7 1 0] rfl (by decide)
  refine ⟨τ, s, hrun, hτ, fun hexact => ?_⟩
  obtain ⟨y, r, st, hmem, hle⟩ := hexact.forgotten rfl
  simp only [List.mem_singleton, WindowEvent.checked.injEq] at hmem
  obtain ⟨-, -, rfl, -⟩ := hmem
  exact absurd hle (by decide)

/-! ## Acknowledgements -/

/-- The buffers that the trimming loop frees. -/
def freed (xidRep : UInt32) (window : List (ReplyT β)) : List β :=
  if window.head?.any (·.xid ≤ xidRep) then
    (window.takeWhile fun r => r.xid ≤ xidRep && !(!r.cbPresent || r.buf.isNone)).filterMap (·.buf)
  else []

/-- The record holds a reply that the client has acknowledged. -/
def ReplyT.droppable (xidRep : UInt32) (r : ReplyT β) : Bool := !r.cbPresent && r.xid ≤ xidRep

/-- What an acknowledgement should do to the window `w` on the arrival of a request. -/
structure Trimmed (w : List (ReplyT β)) (xid xidRep : UInt32) : Prop where
  /-- No acknowledged reply is left. -/
  gone : ∀ r ∈ (checkduplicateAndUpdate w xid xidRep).1, r.droppable xidRep = false
  /-- The acknowledged replies are freed, each once. -/
  freed : freed xidRep w = (w.filter (ReplyT.droppable xidRep)).filterMap (·.buf)
  /-- The other records stay as they are and in order; at most the new request is added. -/
  kept : (checkduplicateAndUpdate w xid xidRep).1 = w.filter (! ReplyT.droppable xidRep ·) ∨
    (checkduplicateAndUpdate w xid xidRep).1 =
      insertNew xid (w.filter (! ReplyT.droppable xidRep ·))

/-- The number of replies in a window. -/
def stored (w : List (ReplyT β)) : Nat := w.countP (! ·.cbPresent)

/-- The number of calls in progress. -/
def inProgress (w : List (ReplyT β)) : Nat := w.countP (·.cbPresent)

/-- There are no more replies in `w` than calls of `clt` that `xidRep` does not acknowledge and calls
in progress. -/
def Bounded (τ : List (WindowEvent β)) (clt xidRep : UInt32) (w : List (ReplyT β)) : Prop :=
  stored w ≤ (news clt τ).countP (xidRep < ·) + inProgress w

section
variable {w : List (ReplyT β)} {s : Windows β} {τ : List (WindowEvent β)} {clt xid xidRep : UInt32}

theorem freed_eq (h : WindowOk w) : Rpc.freed xidRep w = [] := by
  unfold Rpc.freed
  split
  · cases w with
    | nil => rfl
    | cons r w =>
        -- the loop breaks at once, as in `trim_eq`
        have := h.record r (by simp)
        rw [List.takeWhile_cons_of_neg]
        · rfl
        · cases hb : r.buf <;> simp_all
  · rfl

/-- A request leaves the window as it is, but for its own record. -/
theorem WindowOk.check_window (h : WindowOk w) (xid xidRep : UInt32) :
    (checkduplicateAndUpdate w xid xidRep).1 = w ∨
      (checkduplicateAndUpdate w xid xidRep).1 = Rpc.insertNew xid w := by
  rcases h.check xid xidRep with ⟨r, -, hc⟩ | ⟨-, hc⟩ | ⟨-, hc⟩
  · exact .inl (by rw [hc])
  · exact .inl (by rw [hc])
  · exact .inr (by rw [hc])

theorem WindowOk.trimmed_iff (h : WindowOk w) :
    Trimmed w xid xidRep ↔ ∀ r ∈ w, r.droppable xidRep = false := by
  constructor
  · intro ht r hr
    apply ht.gone r
    rcases h.check_window xid xidRep with hw | hw
    · rwa [hw]
    · rw [hw, mem_insertNew]
      exact .inr hr
  · intro hno
    have hkeep : w.filter (! ReplyT.droppable xidRep ·) = w :=
      List.filter_eq_self.mpr fun r hr => by simp [hno r hr]
    have hdrop : w.filter (ReplyT.droppable xidRep) = [] :=
      List.filter_eq_nil_iff.mpr fun r hr => by simp [hno r hr]
    refine ⟨fun r hr => ?_, ?_, ?_⟩
    · rcases h.check_window xid xidRep with hw | hw
      · exact hno r (hw ▸ hr)
      · rw [hw, mem_insertNew] at hr
        rcases hr with rfl | hr
        · rfl
        · exact hno r hr
    · rw [freed_eq h, hdrop]
      rfl
    · rw [hkeep]
      exact h.check_window xid xidRep

/-- A request adds no reply. -/
theorem stored_insertNew : stored (Rpc.insertNew xid w) = stored w := by
  have hperm := List.perm_orderedInsert (fun a b : ReplyT β => a.xid < b.xid) ⟨xid, true, none⟩ w
  exact (hperm.countP_eq _).trans (by simp [stored])

/-- The replies in the window belong to different calls of the client. -/
theorem Windows.Tracks.stored_le (h : s.Tracks τ)
    (hno : ∀ r ∈ s.window clt, r.droppable xidRep = false) :
    stored (s.window clt) ≤ (news clt τ).countP (xidRep < ·) := by
  have hnodup : (((s.window clt).filter (! ·.cbPresent)).map ReplyT.xid).Nodup := by
    refine (List.pairwise_map.mpr ?_ : List.Pairwise (· ≠ ·) _)
    exact ((h.ok clt).sorted.filter _).imp fun hlt => UInt32.ne_of_lt hlt
  have hsub : ((s.window clt).filter (! ·.cbPresent)).map ReplyT.xid ⊆
      (news clt τ).filter (xidRep < ·) := by
    intro x hx
    obtain ⟨r, hr, rfl⟩ := List.mem_map.mp hx
    obtain ⟨hr, hdone⟩ := List.mem_filter.mp hr
    have hlt := hno r hr
    simp only [ReplyT.droppable, hdone, Bool.true_and, decide_eq_false_iff_not,
      UInt32.not_le] at hlt
    refine List.mem_filter.mpr ⟨(h.seen clt r.xid).mpr ⟨r, ?_⟩, by simpa using hlt⟩
    exact (h.ok clt).entry_eq_some.mpr ⟨hr, rfl⟩
  have hle := (List.subperm_of_subset hnodup hsub).length_le
  rwa [List.length_map, ← List.countP_eq_length_filter, ← List.countP_eq_length_filter] at hle

end

/-- For every window that can come about, an acknowledgement does what it should, and leaves the
window bounded, if and only if there is no acknowledged reply in the window. -/
theorem acked_trimmed_iff {s : Windows β} {τ : List (WindowEvent β)}
    (hrun : (windowSystem β).Run τ s) (clt xid xidRep : UInt32) :
    (Trimmed (s.window clt) xid xidRep ∧
      Bounded τ clt xidRep (checkduplicateAndUpdate (s.window clt) xid xidRep).1) ↔
    ∀ r ∈ s.window clt, r.droppable xidRep = false := by
  obtain ⟨h, -⟩ := windows_run hrun
  rw [(h.ok clt).trimmed_iff]
  refine and_iff_left_of_imp fun hno => ?_
  have hle := h.stored_le hno
  unfold Bounded
  rcases (h.ok clt).check_window xid xidRep with hw | hw
  · rw [hw]
    omega
  · rw [hw, stored_insertNew]
    omega

/-- A reply that is not acknowledged yet stays. -/
theorem acked_trimmed_pending :
    ∃ τ s, (windowSystem (Bytes × Int32)).Run τ s ∧ s.window 7 = [⟨1, false, some ([5], 1)⟩] ∧
      (Trimmed (s.window 7) 2 0 ∧ Bounded τ 7 0 (checkduplicateAndUpdate (s.window 7) 2 0).1) := by
  obtain ⟨τ, s, hrun, hs⟩ := System.exists_run (S := windowSystem (Bytes × Int32)) (s := .new)
    (p := fun _ s => s.window 7 = [⟨1, false, some ([5], 1)⟩])
    [.check 7 1 0, .reply 7 1 ([5], 1)] rfl (by decide)
  refine ⟨τ, s, hrun, hs, (acked_trimmed_iff hrun 7 2 0).mpr ?_⟩
  rw [hs]
  decide

/-- The client has acknowledged call 1, and the reply is still there. -/
theorem acked_reply_kept :
    ∃ s, (windowSystem (Bytes × Int32)).Reachable s ∧
      (checkduplicateAndUpdate (s.window 7) 2 1).1 =
        [⟨1, false, some ([5], 1)⟩, ⟨2, true, none⟩] ∧
      freed 1 (s.window 7) = [] ∧ ¬ Trimmed (s.window 7) 2 1 := by
  obtain ⟨s, hreach, hs⟩ := System.exists_reachable (S := windowSystem (Bytes × Int32)) (s := .new)
    (p := fun s => s.window 7 = [⟨1, false, some ([5], 1)⟩])
    [.check 7 1 0, .reply 7 1 ([5], 1)] rfl (by decide)
  have hcheck : (checkduplicateAndUpdate (s.window 7) 2 1).1 =
      [⟨1, false, some ([5], 1)⟩, ⟨2, true, none⟩] := by
    rw [hs]
    decide
  refine ⟨s, hreach, hcheck, by rw [hs]; decide, fun ht => ?_⟩
  have hgone := ht.gone ⟨1, false, some ([5], 1)⟩ (by simp [hcheck])
  exact absurd hgone (by decide)

end Yfs.Rpc
