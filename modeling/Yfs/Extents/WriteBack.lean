import Mathlib.Logic.Function.Basic
import Yfs.Extents.Client

/-!
# The write-back cache against the server

One client that is the only user of its extents should not be able to tell its cache from the server
itself. `answers` is what a sequence of calls gives through the cache, `directAnswers` what it gives
when every call goes to the server and `flush` does nothing. The two are not always the same:

* `get` of an extent that was removed and not flushed returns OK and the old data;
* `remove` says NOENT of every extent without an entry, and OK of every extent with one;
* `flush` of an extent that was removed before it ever got to the server returns NOENT.

`answers_eq_direct_iff` says that there is nothing else: the answers are the same exactly when no
call of the sequence meets one of these states (`AllAgree`).
-/

namespace Yfs.Extents

open Yfs.Rpc (Bytes)

/-- An operation through the cache, its RPC included. -/
def Copies.step (n : Copies) (op : Op) (now : UInt32) : Copies × Answer :=
  match op.start n.cache now with
  | .done e r => ({ n with cache := e }, r)
  | .call e p =>
      let (r, server) := p.serve n.server now
      let (cache, r) := p.finish e r now
      ({ cache, server }, r)

/-- An operation on the server, without a cache. -/
def Op.direct (x : Option Extent) (now : UInt32) : Op → Answer × Option Extent
  | .get => serverGet x now
  | .getattr => serverGetattr x
  | .put buf => serverPut x buf now
  | .remove => serverRemove x
  | .flush => ({ ret := .ok }, x)

/-- A call of an operation at the time `now`. -/
structure Request where
  eid : ExtentId
  op : Op
  now : UInt32
  deriving DecidableEq, Repr

/-- What the calls give through the cache. -/
def answers (w : ExtentId → Copies) : List Request → List Answer
  | [] => []
  | q :: qs =>
      let r := (w q.eid).step q.op q.now
      r.2 :: answers (Function.update w q.eid r.1) qs

/-- What the calls give on the server. -/
def directAnswers (w : ExtentId → Option Extent) : List Request → List Answer
  | [] => []
  | q :: qs =>
      let r := q.op.direct (w q.eid) q.now
      r.1 :: directAnswers (Function.update w q.eid r.2) qs

/-- The states in which an operation gives the answer of the server. -/
def Op.Agrees (n : Copies) : Op → Prop
  | .get => ¬ n.Removed
  | .remove =>
      match n.cache with
      | none => n.server = none
      | some c => c.valid = true ∨ c.dirty = false ∧ n.server ≠ none
  | .flush => n.Removed → n.server ≠ none
  | _ => True

/-- Every call meets a state in which it gives the answer of the server. -/
def AllAgree (w : ExtentId → Copies) : List Request → Prop
  | [] => True
  | q :: qs =>
      q.op.Agrees (w q.eid) ∧
        AllAgree (Function.update w q.eid ((w q.eid).step q.op q.now).1) qs

/-! ## One call -/

/-- The cache and the server together stand for the server's entry `x`. -/
structure Stands (n : Copies) (x : Option Extent) : Prop where
  clean : n.Clean
  view : n.view = x.map Extent.name

/-- A call gives the server's answer exactly in the states `Op.Agrees` lists, and then it has the
server's effect. -/
structure Follows (n : Copies) (x : Option Extent) (op : Op) (now : UInt32) : Prop where
  answer : (n.step op now).2 = (op.direct x now).1 ↔ op.Agrees n
  stands : op.Agrees n → Stands (n.step op now).1 (op.direct x now).2

variable {n : Copies} {x : Option Extent} {op : Op} {now : UInt32}

section

variable {c : ExtentCache} {y : Option Extent}

/-- A placeholder says no more than no entry. -/
theorem Stands.of_blank (h : Stands n x) (hblank : n.Blank) :
    n.server.map Extent.name = x.map Extent.name := by
  rw [← h.view, hblank.view, Copies.stored]

theorem Stands.of_valid (h : Stands ⟨some c, y⟩ x) (hv : c.valid = true) :
    ∃ e, x = some e ∧ e.name = c.data := by
  have hview : some c.data = x.map Extent.name := by
    rw [← h.view, Copies.view]
    simp only [if_pos hv]
  exact Option.map_eq_some_iff.mp hview.symm

theorem Stands.of_removed (h : Stands ⟨some c, y⟩ x) (hv : c.valid = false) (hd : c.dirty = true) :
    x = none := by
  have hview : none = x.map Extent.name := by
    rw [← h.view, Copies.view]
    simp only [hv, hd, Bool.false_eq_true, if_false, if_true]
  exact Option.map_eq_none_iff.mp hview.symm

/-- The reply of the server fills the entry. -/
theorem stands_fetched {data : Bytes} {a : Attr} {e e' : Extent} (hserver : e.name = data)
    (hname : e'.name = data) :
    Stands ⟨some { data, dirty := false, valid := true, a }, some e⟩ (some e') := by
  constructor
  · simp [Copies.Clean, Copies.stored, hserver]
  · simp [Copies.view, hname]

/-- A blank entry leaves it to the server. -/
theorem stands_blank (hblank : n.Blank) (h : n.server.map Extent.name = x.map Extent.name) :
    Stands n x :=
  ⟨hblank.clean, hblank.view.trans h⟩

/-- With a blank entry the server is asked, and has what `x` has. -/
theorem Stands.get_blank (h : Stands n x) (hblank : n.Blank) : Follows n x .get now := by
  have hserver := h.of_blank hblank
  have hagrees : Op.get.Agrees n := hblank.not_removed
  obtain ⟨cache, y⟩ := n
  obtain ⟨flag, hstart⟩ : ∃ flag, Op.get.start cache now = .call cache (.get flag) := by
    cases cache with
    | none => exact ⟨false, rfl⟩
    | some c => exact ⟨true, by simp [Op.start, Extents.get, hblank c rfl]⟩
  cases y with
  | none =>
      obtain rfl : x = none := Option.map_eq_none_iff.mp hserver.symm
      have hstep : Copies.step ⟨cache, none⟩ .get now = (⟨cache, none⟩, { ret := .noent }) := by
        simp [Copies.step, hstart, Pending.serve, serverGet, Pending.finish, getReply]
      refine ⟨by simp [hstep, hagrees, Op.direct, serverGet], fun _ => ?_⟩
      rw [hstep]
      exact stands_blank hblank rfl
  | some e =>
      obtain ⟨e', rfl, hname⟩ := Option.map_eq_some_iff.mp hserver.symm
      constructor
      · simp [Copies.step, hstart, hagrees, Op.direct, serverGet, Pending.serve, Pending.finish,
          getReply, hname]
      · intro _
        simp only [Copies.step, hstart, Pending.serve, serverGet, Pending.finish, getReply,
          if_true]
        exact stands_fetched rfl hname

theorem Stands.get (h : Stands n x) : Follows n x .get now := by
  obtain ⟨cache, y⟩ := n
  cases cache with
  | none => exact h.get_blank Copies.blank_none
  | some c =>
      cases hv : c.valid with
      | true =>
          obtain ⟨e, rfl, hname⟩ := h.of_valid hv
          have hstep : Copies.step ⟨some c, y⟩ .get now =
              (⟨some c, y⟩, { ret := .ok, buf := c.data }) := by
            simp [Copies.step, Op.start, Extents.get, hv]
          refine ⟨?_, fun _ => ?_⟩
          · simp [hstep, Op.direct, serverGet, hname, Op.Agrees, Copies.Removed, hv]
          · rw [hstep]
            exact ⟨h.clean, h.view⟩
      | false =>
          cases hd : c.dirty with
          | false => exact h.get_blank (Copies.blank_some.mpr ⟨hv, hd⟩)
          | true =>
              -- the removed data is returned
              obtain rfl := h.of_removed hv hd
              have hremoved : Copies.Removed ⟨some c, y⟩ := ⟨c, rfl, hv, hd⟩
              constructor
              · simp [Copies.step, Op.start, Extents.get, hd, Op.direct, serverGet, Op.Agrees,
                  hremoved]
              · exact fun hagrees => absurd hremoved hagrees

theorem follows_put (buf : Bytes) : Follows n x (.put buf) now where
  answer := iff_of_true rfl trivial
  stands _ := by
    constructor
    · intro c hc _ hd
      cases hc
      cases hd
    · rfl

theorem Stands.remove (h : Stands n x) : Follows n x .remove now := by
  obtain ⟨cache, y⟩ := n
  cases cache with
  | none =>
      -- NOENT, whatever the server has
      have hserver := h.of_blank Copies.blank_none
      cases y with
      | none =>
          obtain rfl : x = none := Option.map_eq_none_iff.mp hserver.symm
          refine ⟨iff_of_true rfl rfl, fun _ => ?_⟩
          exact stands_blank (Copies.blank_some.mpr ⟨rfl, rfl⟩) rfl
      | some e =>
          obtain ⟨e', rfl, -⟩ := Option.map_eq_some_iff.mp hserver.symm
          constructor
          · simp [Copies.step, Op.start, Extents.remove, Op.direct, serverRemove, Op.Agrees]
          · intro hagrees
            cases hagrees
  | some c =>
      -- OK, whatever the entry says
      have hstands : Stands (Copies.step ⟨some c, y⟩ .remove now).1 none := by
        constructor
        · intro c' hc' hv
          cases hc'
          cases hv
        · rfl
      have hnone : (Op.remove.direct x now).2 = none := by
        cases x <;> rfl
      refine ⟨?_, fun _ => hnone ▸ hstands⟩
      have hanswer :
          (Copies.step ⟨some c, y⟩ .remove now).2 = (Op.remove.direct x now).1 ↔ x ≠ none := by
        cases x <;> simp [Copies.step, Op.start, Extents.remove, Op.direct, serverRemove]
      rw [hanswer]
      cases hv : c.valid with
      | true =>
          obtain ⟨e, rfl, -⟩ := h.of_valid hv
          simp [Op.Agrees, hv]
      | false =>
          cases hd : c.dirty with
          | true => simp [h.of_removed hv hd, Op.Agrees, hv, hd]
          | false =>
              have hserver := h.of_blank (Copies.blank_some.mpr ⟨hv, hd⟩)
              cases x <;> cases y <;> simp_all [Op.Agrees]

/-- What is not dirty is cleared, and the server has it already. -/
theorem Stands.flush_clean (h : Stands ⟨some c, y⟩ x) (hd : c.dirty = false) :
    Follows ⟨some c, y⟩ x .flush now := by
  have hstart : Op.flush.start (some c) now = .done (some c.clear) { ret := .ok } := by
    simp [Op.start, Extents.flush, hd]
  have hagrees : Op.flush.Agrees ⟨some c, y⟩ := by
    simp [Op.Agrees, Copies.Removed, hd]
  have hserver : y.map Extent.name = x.map Extent.name := by
    cases hv : c.valid with
    | true =>
        obtain ⟨e, rfl, hname⟩ := h.of_valid hv
        simpa [Copies.stored, hname] using h.clean c rfl hv hd
    | false => exact h.of_blank (Copies.blank_some.mpr ⟨hv, hd⟩)
  refine ⟨iff_of_true (by simp [Copies.step, hstart, Op.direct]) hagrees, fun _ => ?_⟩
  simp only [Copies.step, hstart]
  exact stands_blank (Copies.blank_some.mpr ⟨rfl, rfl⟩) hserver

/-- The data is sent to the server. -/
theorem Stands.flush_valid (h : Stands ⟨some c, y⟩ x) (hd : c.dirty = true) (hv : c.valid = true) :
    Follows ⟨some c, y⟩ x .flush now := by
  obtain ⟨e, rfl, hname⟩ := h.of_valid hv
  have hstart : Op.flush.start (some c) now = .call (some c) (.put c.data) := by
    simp [Op.start, Extents.flush, hv, hd]
  have hagrees : Op.flush.Agrees ⟨some c, y⟩ := by
    simp [Op.Agrees, Copies.Removed, hv]
  refine ⟨iff_of_true ?_ hagrees, fun _ => ?_⟩
  · simp [Copies.step, hstart, Pending.serve, serverPut, Pending.finish, flushReply, Op.direct]
  · simp only [Copies.step, hstart, Pending.serve, serverPut, Pending.finish, flushReply]
    exact stands_blank (Copies.blank_some.mpr ⟨rfl, rfl⟩) (by simp [Op.direct, hname])

/-- The removal is sent to the server, which may never have had the extent. -/
theorem Stands.flush_removed (h : Stands ⟨some c, y⟩ x) (hd : c.dirty = true)
    (hv : c.valid = false) : Follows ⟨some c, y⟩ x .flush now := by
  obtain rfl := h.of_removed hv hd
  have hstart : Op.flush.start (some c) now = .call (some c) .remove := by
    simp [Op.start, Extents.flush, hv, hd]
  have hremoved : Copies.Removed ⟨some c, y⟩ := ⟨c, rfl, hv, hd⟩
  constructor
  · cases y <;> simp [Copies.step, hstart, Pending.serve, serverRemove, Pending.finish, flushReply,
      Op.direct, Op.Agrees, hremoved]
  · intro _
    simp only [Copies.step, hstart, Pending.serve, Pending.finish, flushReply]
    refine stands_blank (Copies.blank_some.mpr ⟨rfl, rfl⟩) ?_
    cases y <;> rfl

theorem Stands.flush (h : Stands n x) : Follows n x .flush now := by
  obtain ⟨cache, y⟩ := n
  cases cache with
  | none => exact ⟨iff_of_true rfl (by simp [Op.Agrees, Copies.Removed]), fun _ => h⟩
  | some c =>
      cases hd : c.dirty with
      | false => exact h.flush_clean hd
      | true =>
          cases hv : c.valid with
          | true => exact h.flush_valid hd hv
          | false => exact h.flush_removed hd hv

end

theorem Stands.follows (h : Stands n x) (hop : op ≠ .getattr) : Follows n x op now := by
  cases op with
  | get => exact h.get
  | getattr => exact absurd rfl hop
  | put buf => exact follows_put buf
  | remove => exact h.remove
  | flush => exact h.flush

/-! ## A sequence of calls -/

theorem answers_eq_iff {w : ExtentId → Copies} {v : ExtentId → Option Extent}
    (h : ∀ eid, Stands (w eid) (v eid)) {qs : List Request} (hqs : ∀ q ∈ qs, q.op ≠ .getattr) :
    answers w qs = directAnswers v qs ↔ AllAgree w qs := by
  induction qs generalizing w v with
  | nil => simp [answers, directAnswers, AllAgree]
  | cons q qs ih =>
      have hq : q.op ≠ .getattr := hqs q (by simp)
      have hcall : Follows (w q.eid) (v q.eid) q.op q.now := (h q.eid).follows hq
      simp only [answers, directAnswers, AllAgree, List.cons.injEq, hcall.answer]
      -- after a call that agrees, the two sides stand for the same contents again
      refine and_congr_right fun hg => ih (fun eid => ?_) fun q' hq' => hqs q' (by simp [hq'])
      by_cases heq : eid = q.eid
      · subst heq
        simpa using hcall.stands hg
      · simpa [heq] using h eid

/-- From an empty cache and any server contents, the answers through the cache are those of the
server exactly when every call meets a state in which it gives the answer of the server. -/
theorem answers_eq_direct_iff (x : ExtentId → Option Extent) (qs : List Request)
    (hqs : ∀ q ∈ qs, q.op ≠ .getattr) :
    answers (fun eid => ⟨none, x eid⟩) qs = directAnswers x qs ↔
      AllAgree (fun eid => ⟨none, x eid⟩) qs :=
  answers_eq_iff (fun _ => ⟨by simp [Copies.Clean], rfl⟩) hqs

/-- A life of an extent without a bad call: it is put, flushed, got and removed, and the removal is
flushed before it is got again. -/
theorem answers_eq_direct_lifetime :
    answers (fun _ => ⟨none, none⟩) [⟨5, .put [97], 9⟩, ⟨5, .flush, 9⟩, ⟨5, .get, 9⟩, ⟨5, .remove, 9⟩,
        ⟨5, .flush, 9⟩, ⟨5, .get, 9⟩] =
      directAnswers (fun _ => none) [⟨5, .put [97], 9⟩, ⟨5, .flush, 9⟩, ⟨5, .get, 9⟩,
        ⟨5, .remove, 9⟩, ⟨5, .flush, 9⟩, ⟨5, .get, 9⟩] :=
  (answers_eq_direct_iff (fun _ => none) _ (by decide)).mpr (by
    simp [AllAgree, Op.Agrees, Copies.Removed, Copies.step, Op.start, put, get, remove, flush,
      Pending.serve, serverGet, serverPut, serverRemove, Pending.finish, getReply, flushReply,
      ExtentCache.clear])

/-- `get` after `remove` returns the removed data, where the server says NOENT. -/
theorem get_after_remove_stale :
    answers (fun _ => ⟨none, none⟩) [⟨5, .put [97], 9⟩, ⟨5, .remove, 9⟩, ⟨5, .get, 9⟩] =
      [{ ret := .ok }, { ret := .ok }, { ret := .ok, buf := [97] }] ∧
    directAnswers (fun _ => none) [⟨5, .put [97], 9⟩, ⟨5, .remove, 9⟩, ⟨5, .get, 9⟩] =
      [{ ret := .ok }, { ret := .ok }, { ret := .noent }] := by
  decide

end Yfs.Extents
