import Mathlib.Algebra.Order.Ring.Int
import Yfs.Lib.Walk

/-!
# Accepting connections

The listener keeps the connections that it has accepted in `conns_`, by descriptor, and has a reference
to each of them. `process_accept` goes through `conns_` when there is a new one, and drops every
connection that is dead and that nobody else has a reference to.

It does so with `conns_.erase(i)`, and the loop goes on with `i++`: the iterator points to an element
that is not there any more. So the loop does what it should exactly if there is nothing to collect
(`accept_collects_iff`, `accept_erased`).

Nothing else happens to the connections meanwhile. The constructor of a connection also registers it
with the poll manager (`PollMgr.addCallback`), which is left out here.
-/

namespace Yfs.Net

open Yfs.Lib

/-- What the listener looks at of a `connection`. -/
structure Peer where
  fd : Int
  dead : Bool
  refno : Int
  deriving DecidableEq, Repr

structure Tcpsconn where
  conns : SortedMap Int Nat
  /-- The connections by their addresses. -/
  heap : Nat → Option Peer

/-- Why `process_accept` does not return. -/
inductive AcceptFault where
  /-- `accept` has failed, and the thread exits. -/
  | exited
  /-- An iterator is advanced or dereferenced whose element was erased. -/
  | erased
  /-- There is no connection at an address. -/
  | freed
  | verify
  | unfinished
  deriving DecidableEq, Repr

namespace Tcpsconn

/-! ## `process_accept` -/

/-- The connection at an address. -/
def peer (t : Tcpsconn) (c : Nat) : Except AcceptFault Peer :=
  match t.heap c with
  | some p => .ok p
  | none => .error .freed

/-- The address that an iterator points to. -/
def deref (t : Tcpsconn) (i : Int) : Except AcceptFault Nat :=
  match t.conns.find i with
  | some c => .ok c
  | none => .error .erased

/-- `connection::decref`. -/
def decref (t : Tcpsconn) (c : Nat) : Except AcceptFault Tcpsconn := do
  let p ← t.peer c
  let refno := p.refno - 1
  if refno < 0 then .error .verify
  else if refno = 0 ∧ p.dead then return { t with heap := Function.update t.heap c none }
  else return { t with heap := Function.update t.heap c (some { p with refno }) }

/-- The body of the loop. -/
def collect (i : Int) (t : Tcpsconn) : Except AcceptFault Tcpsconn := do
  let c ← t.deref i
  let p ← t.peer c
  if p.dead ∧ p.refno = 1 then
    let t ← t.decref c
    return { t with conns := t.conns.erase i }
  else return t

def collectAll : Walk Int Nat Tcpsconn AcceptFault where
  map := conns
  body := collect
  erased := .erased
  unfinished := .unfinished

/-- A connection as its constructor leaves it. -/
def newPeer (fd : Int) : Peer := { fd, dead := false, refno := 1 }

/-- `new connection(mgr_, s1, lossy_)`. -/
def newConnection (t : Tcpsconn) (s1 : Int) (ch : Nat) : Tcpsconn :=
  { t with heap := Function.update t.heap ch (some (newPeer s1)) }

/-- `process_accept`, where `accept` returns `s1` and the new connection is at `ch`. -/
def processAccept (t : Tcpsconn) (s1 : Int) (ch : Nat) : Except AcceptFault Tcpsconn := do
  if s1 < 0 then .error .exited
  else
    let t ← collectAll.run (t.newConnection s1 ch)
    let p ← t.peer ch
    return { t with conns := t.conns.insert p.fd ch }

/-! ## What it should do -/

/-- The connection is dead and nobody else has a reference to it. -/
def garbage (t : Tcpsconn) (c : Nat) : Bool := (t.heap c).any fun p => p.dead && p.refno = 1

/-- `accept` gives a descriptor that is not open, `new` gives memory that is not in use, and `conns_`
has pointers to connections only. -/
structure Ready (t : Tcpsconn) (s1 : Int) (ch : Nat) : Prop where
  nonneg : 0 ≤ s1
  fd : ∀ p ∈ t.conns.entries, p.1 ≠ s1
  memory : t.heap ch = none
  live : ∀ p ∈ t.conns.entries, (t.heap p.2).isSome

/-- The garbage is removed and freed with its last reference, nothing else is changed, and the new
connection is there. -/
structure Collected (t : Tcpsconn) (s1 : Int) (ch : Nat) (t' : Tcpsconn) : Prop where
  conns : ∀ fd c, (fd, c) ∈ t'.conns.entries ↔
    (fd, c) = (s1, ch) ∨ ((fd, c) ∈ t.conns.entries ∧ t.garbage c = false)
  freed : ∀ p ∈ t.conns.entries, t.garbage p.2 = true → t'.heap p.2 = none
  new : t'.heap ch = some (newPeer s1)
  others : ∀ c, c ≠ ch → (∀ p ∈ t.conns.entries, p.2 = c → t.garbage c = false) → t'.heap c = t.heap c

/-! ## The loop -/

variable {t : Tcpsconn} {s1 : Int} {ch : Nat} {p : Int × Nat} {q : Peer}

theorem find_of_mem (h : p ∈ t.conns.entries) : t.conns.find p.1 = some p.2 := by
  obtain ⟨pre, post, hsplit⟩ := List.append_of_mem h
  exact SortedMap.find_of_split hsplit

theorem collect_of_live (h : p ∈ t.conns.entries) (hq : t.heap p.2 = some q)
    (hlive : ¬ (q.dead = true ∧ q.refno = 1)) : collect p.1 t = .ok t := by
  simp only [collect, deref, find_of_mem h, peer, hq, bind, Except.bind]
  rw [if_neg hlive]
  rfl

/-- The element is erased, and the connection with it. -/
theorem collect_of_dead (h : p ∈ t.conns.entries) (hq : t.heap p.2 = some q)
    (hdead : q.dead = true ∧ q.refno = 1) : collect p.1 t = .ok
      { conns := t.conns.erase p.1, heap := Function.update t.heap p.2 none } := by
  simp only [collect, deref, find_of_mem h, peer, hq, bind, Except.bind]
  rw [if_pos hdead]
  simp [decref, peer, hq, hdead, bind, Except.bind, pure, Except.pure]

theorem Ready.ne (h : t.Ready s1 ch) (hp : p ∈ t.conns.entries) : p.2 ≠ ch := by
  intro heq
  have := h.live p hp
  rw [heq, h.memory] at this
  cases this

/-- An element of the map, as the loop finds it. -/
theorem Ready.peer (h : t.Ready s1 ch) (hp : p ∈ t.conns.entries) : ∃ q,
    (t.newConnection s1 ch).heap p.2 = some q ∧
    (t.garbage p.2 = true ↔ q.dead = true ∧ q.refno = 1) := by
  obtain ⟨q, hq⟩ := Option.isSome_iff_exists.mp (h.live p hp)
  have hne := h.ne hp
  refine ⟨q, ?_, by simp [garbage, hq]⟩
  show Function.update t.heap ch _ p.2 = some q
  rw [Function.update_of_ne hne, hq]

theorem Ready.collect_of_live (h : t.Ready s1 ch) (hp : p ∈ t.conns.entries)
    (hlive : t.garbage p.2 = false) :
    collect p.1 (t.newConnection s1 ch) = .ok (t.newConnection s1 ch) := by
  obtain ⟨q, hq, hiff⟩ := h.peer hp
  apply Tcpsconn.collect_of_live (t := t.newConnection s1 ch) hp hq
  rw [← hiff, hlive]
  exact Bool.false_ne_true

/-- Without garbage the loop passes everything. -/
theorem Ready.run_of_live (h : t.Ready s1 ch) (hlive : ∀ p ∈ t.conns.entries, t.garbage p.2 = false) :
    collectAll.run (t.newConnection s1 ch) = .ok (t.newConnection s1 ch) := by
  apply Walk.run_of_unchanged
  intro p hp
  exact h.collect_of_live hp (hlive p hp)

/-- With garbage the loop ends where it has erased the first element. -/
theorem Ready.run_of_garbage (h : t.Ready s1 ch) (hp : p ∈ t.conns.entries)
    (hgarbage : t.garbage p.2 = true) : collectAll.run (t.newConnection s1 ch) = .error .erased := by
  have hsome : (t.conns.entries.find? fun p => t.garbage p.2).isSome := by
    rw [List.find?_isSome]
    exact ⟨p, hp, hgarbage⟩
  obtain ⟨r, hr⟩ := Option.isSome_iff_exists.mp hsome
  obtain ⟨hrg, pre, post, hsplit, hpre⟩ := List.find?_eq_some_iff_append.mp hr
  have hmem : ∀ x ∈ pre ++ r :: post, x ∈ t.conns.entries := fun x hx => hsplit ▸ hx
  have hrmem := hmem r (by simp)
  obtain ⟨q, hq, hiff⟩ := h.peer hrmem
  have hbody := collect_of_dead (t := t.newConnection s1 ch) hrmem hq (hiff.mp hrg)
  refine Walk.run_erased (W := collectAll) hsplit (fun x hx => ?_) hbody (SortedMap.find_erase _ _)
  apply h.collect_of_live (hmem x (by simp [hx]))
  simpa using hpre x hx

theorem Ready.processAccept_eq (h : t.Ready s1 ch) : t.processAccept s1 ch = do
    let t ← collectAll.run (t.newConnection s1 ch)
    let p ← t.peer ch
    return { t with conns := t.conns.insert p.fd ch } := by
  rw [processAccept, if_neg (by have := h.nonneg; omega)]

/-- The element at which an iterator is used is gone, as soon as there is garbage. -/
theorem accept_erased (h : t.Ready s1 ch) (hp : p ∈ t.conns.entries) (hgarbage : t.garbage p.2 = true) :
    t.processAccept s1 ch = .error .erased := by
  rw [h.processAccept_eq, h.run_of_garbage hp hgarbage]
  rfl

end Tcpsconn

/-- Accepting a connection collects exactly the garbage, without a use of an iterator whose element was
erased, exactly if there is no garbage. -/
theorem accept_collects_iff (t : Tcpsconn) (s1 : Int) (ch : Nat) (h : t.Ready s1 ch) :
    (∃ t', t.processAccept s1 ch = .ok t' ∧ t.Collected s1 ch t') ↔
      ∀ p ∈ t.conns.entries, t.garbage p.2 = false := by
  constructor
  · rintro ⟨t', ht', -⟩ p hp
    rw [← Bool.not_eq_true]
    intro hgarbage
    rw [Tcpsconn.accept_erased h hp hgarbage] at ht'
    cases ht'
  · intro hlive
    have hnew : (t.newConnection s1 ch).heap ch = some (Tcpsconn.newPeer s1) := Function.update_self ..
    refine ⟨{ t.newConnection s1 ch with conns := t.conns.insert s1 ch }, ?_, ?_⟩
    · rw [h.processAccept_eq, h.run_of_live hlive]
      show ((t.newConnection s1 ch).peer ch >>= _) = _
      rw [Tcpsconn.peer, hnew]
      rfl
    · refine ⟨fun fd c => ?_, fun p hp hg => ?_, hnew, fun c hc _ => Function.update_of_ne hc ..⟩
      · show (fd, c) ∈ insertSorted s1 ch t.conns.entries ↔ _
        rw [mem_insertSorted_iff h.fd]
        constructor
        · rintro (heq | hmem)
          · exact .inl heq
          · exact .inr ⟨hmem, hlive _ hmem⟩
        · rintro (heq | ⟨hmem, -⟩)
          · exact .inl heq
          · exact .inr hmem
      · rw [hlive p hp] at hg
        cases hg

/-- A listener with a live connection between two dead ones, to which others have references. -/
def Tcpsconn.referenced : Tcpsconn where
  conns := .ofList [(4, 0), (5, 1), (6, 2)]
  heap c :=
    if c = 0 then some { fd := 4, dead := true, refno := 2 }
    else if c = 1 then some { fd := 5, dead := false, refno := 1 }
    else if c = 2 then some { fd := 6, dead := true, refno := 3 }
    else none

theorem Tcpsconn.ready_referenced : referenced.Ready 7 3 := by
  have hentries : referenced.conns.entries = [(4, 0), (5, 1), (6, 2)] := rfl
  refine ⟨by decide, ?_, rfl, ?_⟩
  · simp [hentries]
  · rw [hentries]
    simp [referenced]

/-- Neither a live connection nor one that is in use is collected. -/
theorem accept_collects_none : Tcpsconn.referenced.Ready 7 3 ∧
    ∃ t', Tcpsconn.referenced.processAccept 7 3 = .ok t' ∧
      Tcpsconn.referenced.Collected 7 3 t' := by
  have hready := Tcpsconn.ready_referenced
  refine ⟨hready, (accept_collects_iff Tcpsconn.referenced 7 3 hready).mpr ?_⟩
  decide

/-- A listener with one connection, which is dead and to which nobody else has a reference. -/
def Tcpsconn.single : Tcpsconn where
  conns := .ofList [(5, 0)]
  heap c := if c = 0 then some { fd := 5, dead := true, refno := 1 } else none

theorem Tcpsconn.ready_single : single.Ready 7 1 := by
  have hentries : single.conns.entries = [(5, 0)] := rfl
  refine ⟨by decide, ?_, rfl, ?_⟩
  · simp [hentries]
  · rw [hentries]
    simp [single]

/-- It is erased, and the iterator is advanced from it. -/
theorem accept_advances_erased : Tcpsconn.single.Ready 7 1 ∧
    Tcpsconn.single.processAccept 7 1 = .error .erased ∧
    ¬ ∃ t', Tcpsconn.single.processAccept 7 1 = .ok t' ∧
      Tcpsconn.single.Collected 7 1 t' := by
  have hready := Tcpsconn.ready_single
  have herased : Tcpsconn.single.processAccept 7 1 = .error .erased :=
    Tcpsconn.accept_erased (p := (5, 0)) hready (by decide) (by decide)
  refine ⟨hready, herased, ?_⟩
  rintro ⟨t', ht', -⟩
  rw [herased] at ht'
  cases ht'

end Yfs.Net
