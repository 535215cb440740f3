import Mathlib.Data.Option.Basic
import Yfs.Lib.Refs
import Yfs.Lib.System

/-!
# Handles

A `handle` object shares the connection to a server with all others of the same name. What they share is
a `hinfo`, which `hmap` has under that name, with a count of the handles. Any number of threads make
handles, call `safebind` and destroy them, and call `delete_handle`. What they do under
`handle_mutex` is one step. `safebind` is two, with `bind` between them, and holds `cl_mutex` all
the time.

Addresses are never used twice, so what was freed is never there again: a thread that uses it runs into
`fault`.
-/

namespace Yfs.Rpc

open Yfs.Lib

/-- `hinfo`. -/
structure Hinfo (N : Type) where
  /-- The address of the `rpcc`. -/
  cl : Option Nat
  refcnt : Int
  del : Bool
  m : N
  /-- The handle in whose `safebind` the mutex is held, and the `rpcc` that is being bound. -/
  clMutex : Option (Nat × Nat)
  deriving DecidableEq, Repr

/-- What `get_handle` fills in. -/
def Hinfo.new {N : Type} (m : N) : Hinfo N :=
  { cl := none, del := false, refcnt := 1, m, clMutex := none }

/-- A `handle`, and the results of its `safebind`s. -/
structure HandleObj where
  h : Option Nat
  got : List Nat
  deriving DecidableEq, Repr

/-- The handles of a process, by number, and what they point to. -/
structure Handles (N : Type) where
  hmap : N → Option Nat
  hinfos : Nat → Option (Hinfo N)
  /-- The next address of a `hinfo`. -/
  nhinfo : Nat
  /-- Each `rpcc`, by its destination. -/
  rpccs : Nat → Option N
  /-- The next address of an `rpcc`. -/
  nrpcc : Nat
  /-- `none` when the handle was destroyed. -/
  objs : List (Option HandleObj)

inductive HandleAction (N : Type) where
  | construct (m : N)
  /-- `safebind`, up to `bind`. -/
  | safebind (x : Nat)
  /-- `bind` returns, and `safebind`. -/
  | bound (x : Nat) (ret : Int)
  /-- A thread uses the `rpcc` at `c`, which it got from handle `x`. -/
  | call (x c : Nat)
  | destruct (x : Nat)
  | deleteHandle (m : N)

inductive HandleEvent where
  /-- The new handle `x` has the `hinfo` at `i`. -/
  | obtained (x i : Nat)
  /-- A `safebind` of `x` returns. -/
  | bound (x : Nat) (r : Option Nat)
  /-- `safebind` could not bind the `rpcc` of `i`. -/
  | failed (i : Nat)
  /-- `delete_handle` was called for the name of `i`. -/
  | deleted (i : Nat)
  /-- Something that was freed is used. -/
  | fault
  deriving DecidableEq, Repr

namespace Handles

variable {N : Type}

def new (N : Type) : Handles N where
  hmap _ := none
  hinfos _ := none
  nhinfo := 0
  rpccs _ := none
  nrpcc := 0
  objs := []

/-- The handle `x`, until it is destroyed. -/
def obj (s : Handles N) (x : Nat) : Option HandleObj := s.objs[x]?.join

def setObj (s : Handles N) (x : Nat) (o : Option HandleObj) : Handles N :=
  { s with objs := s.objs.set x o }

def addObj (s : Handles N) (h : Option Nat) : Handles N :=
  { s with objs := s.objs ++ [some { h, got := [] }] }

def setHinfo (s : Handles N) (i : Nat) (h : Option (Hinfo N)) : Handles N :=
  { s with hinfos := Function.update s.hinfos i h }

def setRpcc (s : Handles N) (c : Nat) (m : Option N) : Handles N :=
  { s with rpccs := Function.update s.rpccs c m }

variable [DecidableEq N]

/-- `handle_mgr::get_handle`. Like the functions below, `none` if it uses what was freed. -/
def getHandle (s : Handles N) (m : N) : Option (Handles N × Option Nat) :=
  match s.hmap m with
  | none =>
      some ({ s.setHinfo s.nhinfo (some (.new m)) with
        nhinfo := s.nhinfo + 1
        hmap := Function.update s.hmap m (some s.nhinfo) }, some s.nhinfo)
  | some i =>
      match s.hinfos i with
      | none => none
      | some h =>
          if h.del = false then some (s.setHinfo i (some { h with refcnt := h.refcnt + 1 }), some i)
          else some (s, none)

/-- `delete`, for an `rpcc`. -/
def deleteRpcc (s : Handles N) (c : Nat) : Option (Handles N) :=
  if s.rpccs c = none then none else some (s.setRpcc c none)

/-- `handle_mgr::delete_handle_wo`. -/
def deleteHandleWo (s : Handles N) (m : N) : Option (Handles N) :=
  match s.hmap m with
  | none => some s
  | some i =>
      match s.hinfos i with
      | none => none
      | some h =>
          if h.refcnt = 0 then
            let deleted := match h.cl with
              | some c => s.deleteRpcc c
              | none => some s
            deleted.map fun s => { s.setHinfo i none with hmap := Function.update s.hmap m none }
          else some (s.setHinfo i (some { h with del := true }))

/-- `handle_mgr::done_handle`. -/
def doneHandle (s : Handles N) (i : Nat) : Option (Handles N) :=
  match s.hinfos i with
  | none => none
  | some h =>
      let s := s.setHinfo i (some { h with refcnt := h.refcnt - 1 })
      if h.refcnt - 1 = 0 ∧ h.del = true then s.deleteHandleWo h.m else some s

/-- What `safebind` does before `bind`. It has to wait while the mutex is held. -/
def safebind (s : Handles N) (x : Nat) (o : HandleObj) : Option (Handles N × List HandleEvent) :=
  match o.h with
  | none => some (s, [.bound x none])
  | some i =>
      match s.hinfos i with
      | none => some (s, [.fault])
      | some h =>
          if h.clMutex ≠ none then none
          else if h.del = true then some (s, [.bound x none])
          else match h.cl with
            | some c => some (s.setObj x (some { o with got := c :: o.got }), [.bound x (some c)])
            | none =>
                some ({ (s.setRpcc s.nrpcc (some h.m)).setHinfo i
                    (some { h with clMutex := some (x, s.nrpcc) }) with
                  nrpcc := s.nrpcc + 1 }, [])

/-- What `safebind` does after `bind`. -/
def bound (s : Handles N) (x : Nat) (o : HandleObj) (ret : Int) :
    Option (Handles N × List HandleEvent) :=
  match o.h with
  | none => none
  | some i =>
      match s.hinfos i with
      | none => some (s, [.fault])
      | some h =>
          match h.clMutex with
          | none => none
          | some (y, c) =>
              if y ≠ x then none
              else if ret < 0 then
                match s.deleteRpcc c with
                | none => some (s, [.fault])
                | some s =>
                    some (s.setHinfo i (some { h with del := true, clMutex := none }),
                      [.failed i, .bound x h.cl])
              else
                some ((s.setHinfo i (some { h with cl := some c, clMutex := none })).setObj x
                  (some { o with got := c :: o.got }), [.bound x (some c)])

/-- The destructor of `x`, which nothing uses any more. -/
def destruct (s : Handles N) (x : Nat) (o : HandleObj) : Option (Handles N × List HandleEvent) :=
  match o.h with
  | none => some (s.setObj x none, [])
  | some i =>
      if (s.hinfos i).any fun h => h.clMutex.any fun p => p.1 = x then none
      else
        match (s.setObj x none).doneHandle i with
        | none => some (s, [.fault])
        | some s => some (s, [])

def next (s : Handles N) : HandleAction N → Option (Handles N × List HandleEvent)
  | .construct m =>
      match s.getHandle m with
      | none => some (s, [.fault])
      | some (s, none) => some (s.addObj none, [])
      | some (s, some i) => some (s.addObj (some i), [.obtained s.objs.length i])
  | .safebind x => (s.obj x).bind (s.safebind x)
  | .bound x ret => (s.obj x).bind fun o => s.bound x o ret
  | .call x c =>
      (s.obj x).bind fun o =>
        if c ∈ o.got then
          if s.rpccs c = none then some (s, [.fault]) else some (s, [])
        else none
  | .destruct x => (s.obj x).bind (s.destruct x)
  | .deleteHandle m =>
      match s.deleteHandleWo m with
      | none => some (s, [.fault])
      | some s' => some (s', (s.hmap m).toList.map .deleted)

end Handles

/-- The handles of a process, and all that its threads do with them. -/
def handleSystem (N : Type) [DecidableEq N] : System (Handles N) (HandleAction N) HandleEvent where
  init s := s = .new N
  next := Handles.next

/-! ## Handles and what they point to -/

namespace Handles

section
variable {N : Type} {s s' s'' : Handles N} {x i : Nat} {o : HandleObj} {m : N}

/-- The handles that point to `i`. -/
def pointers (s : Handles N) (i : Nat) : Nat := s.objs.countP (·.any (·.h = some i))

theorem getElem?_of_obj (hx : s.obj x = some o) : s.objs[x]? = some (some o) :=
  Option.join_eq_some_iff.mp hx

theorem lt_of_obj (hx : s.obj x = some o) : x < s.objs.length :=
  (List.getElem?_eq_some_iff.mp (getElem?_of_obj hx)).1

theorem obj_addObj (s : Handles N) (p : Option Nat) (x : Nat) :
    (s.addObj p).obj x = if x = s.objs.length then some { h := p, got := [] } else s.obj x := by
  unfold obj addObj
  rw [List.getElem?_append]
  split
  · rw [if_neg (by omega)]
  · split
    · subst x
      simp
    · rw [List.getElem?_eq_none (by simp; omega), List.getElem?_eq_none (by omega)]

theorem obj_setObj (hx : s.obj x = some o) (q : Option HandleObj) (y : Nat) :
    (s.setObj x q).obj y = if y = x then q else s.obj y := by
  unfold obj setObj
  rw [List.getElem?_set]
  have := lt_of_obj hx
  by_cases hy : x = y
  · subst hy
    simp [this]
  · simp [hy, Ne.symm hy]

theorem pointers_addObj (s : Handles N) (p : Option Nat) (i : Nat) :
    (s.addObj p).pointers i = s.pointers i + if p = some i then 1 else 0 := by
  unfold pointers addObj
  rw [List.countP_append]
  simp [List.countP_cons]

theorem pointers_setObj (hx : s.obj x = some o) (q : Option HandleObj) (i : Nat) :
    (s.setObj x q).pointers i + (if o.h = some i then 1 else 0) =
      s.pointers i + if q.any (·.h = some i) then 1 else 0 := by
  simpa [pointers, setObj] using
    countP_set_add (p := fun o : Option HandleObj => o.any (·.h = some i)) (b := q) (getElem?_of_obj hx)

theorem pointers_setObj_got (hx : s.obj x = some o) (got : List Nat) (i : Nat) :
    (s.setObj x (some { o with got })).pointers i = s.pointers i := by
  have h := pointers_setObj hx (some { o with got }) i
  simp only [Option.any_some, decide_eq_true_eq] at h
  exact Nat.add_right_cancel h

/-! ## What a step leaves alone -/

/-- All that is not about the `hinfo` at `i` and the name `m` is as it was. -/
structure Frame (i : Nat) (m : N) (s s' : Handles N) : Prop where
  hmap : ∀ m', m' ≠ m → s'.hmap m' = s.hmap m'
  hinfos : ∀ j, j ≠ i → s'.hinfos j = s.hinfos j
  nhinfo : s.nhinfo ≤ s'.nhinfo
  rpccs : ∀ c m', m' ≠ m → s.rpccs c = some m' → s'.rpccs c = some m'
  rpcc : (∀ c, s.rpccs c ≠ none → c < s.nrpcc) → ∀ c, s'.rpccs c ≠ none → c < s'.nrpcc
  pointers : ∀ j, j ≠ i → s'.pointers j = s.pointers j
  obj : ∀ x o, o.h ≠ some i → (s'.obj x = some o ↔ s.obj x = some o)

theorem Frame.refl (i : Nat) (m : N) (s : Handles N) : Frame i m s s :=
  ⟨fun _ _ => rfl, fun _ _ => rfl, le_rfl, fun _ _ _ => id, id, fun _ _ => rfl, fun _ _ _ => Iff.rfl⟩

theorem Frame.trans (h : Frame i m s s') (h' : Frame i m s' s'') : Frame i m s s'' where
  hmap m' hm := (h'.hmap m' hm).trans (h.hmap m' hm)
  hinfos j hj := (h'.hinfos j hj).trans (h.hinfos j hj)
  nhinfo := h.nhinfo.trans h'.nhinfo
  rpccs c m' hm hc := h'.rpccs c m' hm (h.rpccs c m' hm hc)
  rpcc hc := h'.rpcc (h.rpcc hc)
  pointers j hj := (h'.pointers j hj).trans (h.pointers j hj)
  obj x o ho := (h'.obj x o ho).trans (h.obj x o ho)

@[simp] theorem hinfos_setHinfo (s : Handles N) (i : Nat) (g : Option (Hinfo N)) :
    (s.setHinfo i g).hinfos i = g := Function.update_self ..

theorem hinfos_setHinfo_of_ne (s : Handles N) {i j : Nat} (hj : j ≠ i) (g : Option (Hinfo N)) :
    (s.setHinfo i g).hinfos j = s.hinfos j := Function.update_of_ne hj ..

theorem frame_setHinfo (s : Handles N) (i : Nat) (m : N) (g : Option (Hinfo N)) :
    Frame i m s (s.setHinfo i g) :=
  { Frame.refl i m s with hinfos := fun _ hj => hinfos_setHinfo_of_ne s hj g }

theorem frame_addObj (s : Handles N) (i : Nat) (m : N) : Frame i m s (s.addObj (some i)) := by
  refine { Frame.refl i m s with pointers := ?_, obj := ?_ }
  · intro j hj
    rw [pointers_addObj, if_neg (by simpa using hj.symm), Nat.add_zero]
  · intro x o ho
    rw [obj_addObj]
    split
    · subst x
      refine iff_of_false ?_ fun hx => absurd (lt_of_obj hx) (Nat.lt_irrefl _)
      rintro ⟨⟩
      exact ho rfl
    · rfl

/-- A handle that points to `i` changes or goes. -/
theorem frame_setObj (hx : s.obj x = some o) (ho : o.h = some i) (m : N) {q : Option HandleObj}
    (hq : ∀ o', q = some o' → o'.h = some i) : Frame i m s (s.setObj x q) := by
  refine { Frame.refl i m s with pointers := ?_, obj := ?_ }
  · intro j hj
    have h := pointers_setObj hx q j
    have hne : o.h ≠ some j := by simpa [ho] using hj.symm
    have hany : q.any (·.h = some j) = false := by
      cases q with
      | none => rfl
      | some o' => simpa [hq o' rfl] using hj.symm
    simpa [hne, hany] using h
  · intro y o' ho'
    rw [obj_setObj hx]
    split
    · subst y
      refine iff_of_false (fun h => ho' (hq o' h)) ?_
      rw [hx]
      rintro ⟨⟩
      exact ho' ho
    · rfl

/-- An `rpcc` for `m` is deleted. -/
theorem frame_deleteRpcc {c : Nat} (hc : s.rpccs c = some m) (i : Nat) :
    Frame i m s (s.setRpcc c none) := by
  refine { Frame.refl i m s with rpccs := ?_, rpcc := ?_ }
  · intro d m' hm hd
    have hne : d ≠ c := by
      rintro rfl
      exact hm (Option.some.inj (hd.symm.trans hc))
    exact (Function.update_of_ne hne _ _).trans hd
  · intro h d hd
    apply h d
    intro hnone
    apply hd
    by_cases hdc : d = c
    · rw [hdc]
      exact Function.update_self ..
    · exact (Function.update_of_ne hdc _ _).trans hnone

/-- An `rpcc` for `m` is made. -/
theorem frame_newRpcc (h : ∀ c, s.rpccs c ≠ none → c < s.nrpcc) (i : Nat) (m : N) :
    Frame i m s { s.setRpcc s.nrpcc (some m) with nrpcc := s.nrpcc + 1 } := by
  refine { Frame.refl i m s with rpccs := ?_, rpcc := ?_ }
  · intro d m' hm hd
    have hlt := h d (by simp [hd])
    exact (Function.update_of_ne (Nat.ne_of_lt hlt) _ _).trans hd
  · intro _ d hd
    by_cases heq : d = s.nrpcc
    · exact heq ▸ Nat.lt_succ_self _
    · exact Nat.lt_succ_of_lt (h d ((Function.update_of_ne heq (some m) s.rpccs) ▸ hd))

end

/-! ## The invariant -/

variable {N : Type} {s s' : Handles N} {x i c : Nat} {o : HandleObj} {g g' : Hinfo N} {m : N}

/-- What holds of a `hinfo` that was not freed. -/
structure HinfoOk (s : Handles N) (i : Nat) (g : Hinfo N) : Prop where
  mapped : s.hmap g.m = some i
  counted : g.refcnt = s.pointers i
  old : i < s.nhinfo
  cl : ∀ c, g.cl = some c → s.rpccs c = some g.m
  binding : ∀ x c, g.clMutex = some (x, c) →
    g.cl = none ∧ s.rpccs c = some g.m ∧ ∃ o, s.obj x = some o ∧ o.h = some i

/-- Handle `x` with the `hinfo` at `i` is gone. -/
def drop (s : Handles N) (x i : Nat) (g : Hinfo N) : Handles N :=
  (s.setObj x none).setHinfo i (some { g with refcnt := g.refcnt - 1 })

/-- The `hinfo` at `i` is freed, and its `rpcc`. -/
def free [DecidableEq N] (s : Handles N) (i : Nat) (g : Hinfo N) : Handles N :=
  let s := match g.cl with
    | some c => s.setRpcc c none
    | none => s
  { s.setHinfo i none with hmap := Function.update s.hmap g.m none }

/-- A new `hinfo` for `m`, with its first handle. -/
def create [DecidableEq N] (s : Handles N) (m : N) : Handles N :=
  { (s.addObj (some s.nhinfo)).setHinfo s.nhinfo (some (Hinfo.new m)) with
    nhinfo := s.nhinfo + 1
    hmap := Function.update s.hmap m (some s.nhinfo) }

structure Ok (s : Handles N) : Prop where
  hmap : ∀ m i, s.hmap m = some i → ∃ g, s.hinfos i = some g ∧ g.m = m
  hinfo : ∀ i g, s.hinfos i = some g → s.HinfoOk i g
  points : ∀ x o i, s.obj x = some o → o.h = some i →
    ∃ g, s.hinfos i = some g ∧ ∀ c ∈ o.got, g.cl = some c
  null : ∀ x o, s.obj x = some o → o.h = none → o.got = []
  rpcc : ∀ c, s.rpccs c ≠ none → c < s.nrpcc

theorem Ok.name_inj (h : Ok s) (hi : s.hinfos i = some g) {j : Nat} (hj : s.hinfos j = some g')
    (hm : g'.m = g.m) : j = i := by
  have hmapped := (h.hinfo j g' hj).mapped
  rw [hm, (h.hinfo i g hi).mapped] at hmapped
  exact (Option.some.inj hmapped).symm

/-- A step that is about one `hinfo` and one name. -/
theorem Ok.of_frame (h : Ok s) (hf : Frame i m s s')
    (hname : ∀ j g, s.hinfos j = some g → g.m = m → j = i)
    (hhmap : ∀ j, s'.hmap m = some j → ∃ g, s'.hinfos j = some g ∧ g.m = m)
    (hhinfo : ∀ g, s'.hinfos i = some g → s'.HinfoOk i g)
    (hpoints : ∀ x o, s'.obj x = some o → o.h = some i →
      ∃ g, s'.hinfos i = some g ∧ ∀ c ∈ o.got, g.cl = some c)
    (hmap : ∀ m', m' ≠ m → s.hmap m' ≠ some i) : Ok s' where
  hmap m' j hj := by
    by_cases hm : m' = m
    · subst hm
      exact hhmap j hj
    · rw [hf.hmap m' hm] at hj
      have hne : j ≠ i := by
        rintro rfl
        exact hmap m' hm hj
      rw [hf.hinfos j hne]
      exact h.hmap m' j hj
  hinfo j g hj := by
    by_cases hji : j = i
    · subst hji
      exact hhinfo g hj
    · rw [hf.hinfos j hji] at hj
      have hm : g.m ≠ m := fun hm => hji (hname j g hj hm)
      have hg := h.hinfo j g hj
      refine ⟨(hf.hmap _ hm).trans hg.mapped, ?_, hg.old.trans_le hf.nhinfo, ?_, ?_⟩
      · rw [hf.pointers j hji]
        exact hg.counted
      · exact fun c hc => hf.rpccs c _ hm (hg.cl c hc)
      · intro x c hmutex
        obtain ⟨hcl, hc, o, hx, ho⟩ := hg.binding x c hmutex
        refine ⟨hcl, hf.rpccs c _ hm hc, o, (hf.obj x o ?_).mpr hx, ho⟩
        rw [ho]
        simpa using hji
  points x o j hx ho := by
    by_cases hji : j = i
    · subst hji
      exact hpoints x o hx ho
    · rw [hf.hinfos j hji]
      refine h.points x o j ((hf.obj x o ?_).mp hx) ho
      rw [ho]
      simpa using hji
  null x o hx ho := by
    refine h.null x o ((hf.obj x o ?_).mp hx) ho
    rw [ho]
    simp
  rpcc := hf.rpcc h.rpcc

theorem Ok.hmap_ne (h : Ok s) (hi : s.hinfos i = some g) {m : N} (hm : m ≠ g.m) :
    s.hmap m ≠ some i := by
  intro hmap
  obtain ⟨g', hi', rfl⟩ := h.hmap m i hmap
  rw [hi] at hi'
  cases hi'
  exact hm rfl

/-- The `hinfo` at `i` changes and stays. -/
theorem Ok.of_change (h : Ok s) (hi : s.hinfos i = some g) (hf : Frame i g.m s s')
    (hi' : s'.hinfos i = some g') (hm : g'.m = g.m) (hok : s'.HinfoOk i g')
    (hgot : ∀ x o, s'.obj x = some o → o.h = some i → ∀ c ∈ o.got, g'.cl = some c) : Ok s' := by
  refine h.of_frame hf (fun j g' hj hm => h.name_inj hi hj hm) ?_ ?_ ?_ fun m hm => h.hmap_ne hi hm
  · intro j hj
    have hmapped := hok.mapped
    rw [hm, hj] at hmapped
    cases hmapped
    exact ⟨g', hi', hm⟩
  · intro g'' hg
    rw [hi'] at hg
    cases hg
    exact hok
  · exact fun x o hx ho => ⟨g', hi', hgot x o hx ho⟩

/-- What a handle that points to `i` has got. -/
theorem Ok.got (h : Ok s) (hi : s.hinfos i = some g) (hx : s.obj x = some o) (ho : o.h = some i)
    (hc : c ∈ o.got) : g.cl = some c := by
  obtain ⟨g', hi', hgot⟩ := h.points x o i hx ho
  rw [hi] at hi'
  cases hi'
  exact hgot c hc

theorem pointers_eq_zero : s.pointers i = 0 ↔ ∀ x o, s.obj x = some o → o.h ≠ some i := by
  unfold pointers
  rw [List.countP_eq_zero]
  constructor
  · intro h x o hx ho
    have := h (some o) (List.mem_of_getElem? (getElem?_of_obj hx))
    simp [ho] at this
  · intro h q hq
    obtain ⟨x, hx⟩ := List.getElem?_of_mem hq
    cases q with
    | none => simp
    | some o => simpa using h x o (by rw [obj, hx]; rfl)

theorem Ok.share (h : Ok s) (hi : s.hinfos i = some g) :
    Ok ((s.addObj (some i)).setHinfo i (some { g with refcnt := g.refcnt + 1 })) := by
  have hg := h.hinfo i g hi
  refine h.of_change hi ((frame_addObj s i g.m).trans (frame_setHinfo _ i g.m _))
    (Function.update_self ..) rfl ⟨hg.mapped, ?_, hg.old, hg.cl, ?_⟩ ?_
  · show g.refcnt + 1 = (s.addObj (some i)).pointers i
    rw [pointers_addObj, if_pos rfl, hg.counted]
    rfl
  · intro x c hmutex
    obtain ⟨hcl, hc, o, hx, ho⟩ := hg.binding x c hmutex
    refine ⟨hcl, hc, o, (obj_addObj s (some i) x).trans ?_, ho⟩
    rw [if_neg (Nat.ne_of_lt (lt_of_obj hx))]
    exact hx
  · intro x o hx ho c hc
    change (s.addObj (some i)).obj x = some o at hx
    rw [obj_addObj] at hx
    split at hx
    · cases hx
      cases hc
    · exact (h.got hi hx ho hc :)

/-- One more result of a handle. -/
theorem Ok.isBound (h : Ok s) (hx : s.obj x = some o) (ho : o.h = some i) (hi : s.hinfos i = some g)
    (hcl : g.cl = some c) : Ok (s.setObj x (some { o with got := c :: o.got })) := by
  have hg := h.hinfo i g hi
  refine h.of_change hi (frame_setObj hx ho g.m ?_) hi rfl ⟨hg.mapped, ?_, hg.old, hg.cl, ?_⟩ ?_
  · rintro _ ⟨⟩
    exact ho
  · rw [pointers_setObj_got hx]
    exact hg.counted
  · intro y d hmutex
    obtain ⟨hnone, -⟩ := hg.binding y d hmutex
    rw [hcl] at hnone
    cases hnone
  · intro y o' hy ho' d hd
    rw [obj_setObj hx] at hy
    split at hy
    · cases hy
      rcases List.mem_cons.mp hd with rfl | hd
      · exact hcl
      · exact h.got hi hx ho hd
    · exact h.got hi hy ho' hd

theorem Ok.bind (h : Ok s) (hx : s.obj x = some o) (ho : o.h = some i) (hi : s.hinfos i = some g)
    (hcl : g.cl = none) :
    Ok ({ s.setRpcc s.nrpcc (some g.m) with nrpcc := s.nrpcc + 1 }.setHinfo i
      (some { g with clMutex := some (x, s.nrpcc) })) := by
  have hg := h.hinfo i g hi
  refine h.of_change hi ((frame_newRpcc h.rpcc i g.m).trans (frame_setHinfo _ i g.m _))
    (Function.update_self ..) rfl ⟨hg.mapped, hg.counted, hg.old, ?_, ?_⟩ ?_
  · intro c hc
    exact absurd (hcl.symm.trans hc) (by simp)
  · rintro _ _ ⟨⟩
    exact ⟨hcl, Function.update_self .., o, hx, ho⟩
  · exact fun y o' hy ho' d hd => (h.got hi hy ho' hd :)

theorem Ok.bound (h : Ok s) (hx : s.obj x = some o) (ho : o.h = some i) (hi : s.hinfos i = some g)
    (hmutex : g.clMutex = some (x, c)) :
    Ok ((s.setObj x (some { o with got := c :: o.got })).setHinfo i
      (some { g with cl := some c, clMutex := none })) := by
  have hg := h.hinfo i g hi
  obtain ⟨hcl, hc, -⟩ := hg.binding x c hmutex
  -- nothing has been returned before
  have hnone : ∀ y o', s.obj y = some o' → o'.h = some i → o'.got = [] := by
    intro y o' hy ho'
    apply List.eq_nil_iff_forall_not_mem.mpr
    intro d hd
    exact absurd (hcl.symm.trans (h.got hi hy ho' hd)) (by simp)
  refine h.of_change hi ((frame_setObj hx ho g.m ?_).trans (frame_setHinfo _ i g.m _))
    (Function.update_self ..) rfl ⟨hg.mapped, ?_, hg.old, ?_, ?_⟩ ?_
  · rintro _ ⟨⟩
    exact ho
  · show g.refcnt = (s.setObj x (some { o with got := c :: o.got })).pointers i
    rw [pointers_setObj_got hx]
    exact hg.counted
  · rintro _ ⟨⟩
    exact hc
  · rintro _ _ ⟨⟩
  · intro y o' hy ho' d hd
    change (s.setObj x (some { o with got := c :: o.got })).obj y = some o' at hy
    rw [obj_setObj hx] at hy
    split at hy
    · cases hy
      rw [hnone x o hx ho] at hd
      rw [List.mem_singleton.mp hd]
    · rw [hnone y o' hy ho'] at hd
      cases hd

theorem Ok.failed (h : Ok s) (hi : s.hinfos i = some g) (hmutex : g.clMutex = some (x, c)) :
    Ok ((s.setRpcc c none).setHinfo i (some { g with del := true, clMutex := none })) := by
  have hg := h.hinfo i g hi
  obtain ⟨hcl, hc, -⟩ := hg.binding x c hmutex
  refine h.of_change hi ((frame_deleteRpcc hc i).trans (frame_setHinfo _ i g.m _))
    (Function.update_self ..) rfl ⟨hg.mapped, hg.counted, hg.old, ?_, ?_⟩ ?_
  · intro d hd
    exact absurd (hcl.symm.trans hd) (by simp)
  · rintro _ _ ⟨⟩
  · exact fun y o' hy ho' d hd => (h.got hi hy ho' hd :)

theorem Ok.drop (h : Ok s) (hx : s.obj x = some o) (ho : o.h = some i) (hi : s.hinfos i = some g)
    (hmutex : ∀ c, g.clMutex ≠ some (x, c)) : Ok (s.drop x i g) := by
  have hg := h.hinfo i g hi
  refine h.of_change hi ((frame_setObj hx ho g.m (by simp)).trans (frame_setHinfo _ i g.m _))
    (Function.update_self ..) rfl ⟨hg.mapped, ?_, hg.old, hg.cl, ?_⟩ ?_
  · have hp := pointers_setObj hx none i
    simp only [ho, Option.any_none, if_true, Bool.false_eq_true, if_false, Nat.add_zero] at hp
    show g.refcnt - 1 = (s.setObj x none).pointers i
    rw [hg.counted, ← hp]
    omega
  · intro y c hmutex'
    obtain ⟨hcl, hc, o', hy, ho'⟩ := hg.binding y c hmutex'
    refine ⟨hcl, hc, o', ?_, ho'⟩
    show (s.setObj x none).obj y = some o'
    rw [obj_setObj hx, if_neg]
    · exact hy
    · rintro rfl
      exact hmutex c hmutex'
  · intro y o' hy ho' d hd
    change (s.setObj x none).obj y = some o' at hy
    rw [obj_setObj hx] at hy
    split at hy
    · cases hy
    · exact (h.got hi hy ho' hd :)

theorem Ok.mark (h : Ok s) (hi : s.hinfos i = some g) :
    Ok (s.setHinfo i (some { g with del := true })) := by
  have hg := h.hinfo i g hi
  refine h.of_change hi (frame_setHinfo s i g.m _) (Function.update_self ..) rfl
    ⟨hg.mapped, hg.counted, hg.old, hg.cl, hg.binding⟩ ?_
  exact fun y o' hy ho' d hd => (h.got hi hy ho' hd :)

/-- Handles that point to nothing come or go. -/
theorem Ok.of_objs (h : Ok s) {objs : List (Option HandleObj)}
    (hp : ∀ i, { s with objs }.pointers i = s.pointers i)
    (hobj : ∀ x o, o.h ≠ none → ({ s with objs }.obj x = some o ↔ s.obj x = some o))
    (hnull : ∀ x o, { s with objs }.obj x = some o → o.h = none → o.got = []) : Ok { s with objs } where
  hmap := h.hmap
  hinfo i g hi := by
    have hg := h.hinfo i g hi
    refine ⟨hg.mapped, ?_, hg.old, hg.cl, ?_⟩
    · rw [hp i]
      exact hg.counted
    · intro x c hmutex
      obtain ⟨hcl, hc, o, hx, ho⟩ := hg.binding x c hmutex
      exact ⟨hcl, hc, o, (hobj x o (by simp [ho])).mpr hx, ho⟩
  points x o i hx ho := h.points x o i ((hobj x o (by simp [ho])).mp hx) ho
  null := hnull
  rpcc := h.rpcc

theorem Ok.refuse (h : Ok s) : Ok (s.addObj none) := by
  refine h.of_objs (fun i => pointers_addObj s none i) ?_ ?_
  · intro x o ho
    show (s.addObj none).obj x = some o ↔ _
    rw [obj_addObj]
    split
    · subst x
      refine iff_of_false ?_ fun hx => absurd (lt_of_obj hx) (Nat.lt_irrefl _)
      rintro ⟨⟩
      exact ho rfl
    · rfl
  · intro x o hx ho
    change (s.addObj none).obj x = some o at hx
    rw [obj_addObj] at hx
    split at hx
    · cases hx
      rfl
    · exact h.null x o hx ho

theorem Ok.dropNull (h : Ok s) (hx : s.obj x = some o) (ho : o.h = none) : Ok (s.setObj x none) := by
  refine h.of_objs ?_ ?_ ?_
  · intro i
    have hp := pointers_setObj hx none i
    rw [ho] at hp
    exact hp
  · intro y o' ho'
    show (s.setObj x none).obj y = some o' ↔ _
    rw [obj_setObj hx]
    split
    · subst y
      refine iff_of_false (by simp) ?_
      rw [hx]
      rintro ⟨⟩
      exact ho' ho
    · rfl
  · intro y o' hy ho'
    change (s.setObj x none).obj y = some o' at hy
    rw [obj_setObj hx] at hy
    split at hy
    · cases hy
    · exact h.null y o' hy ho'

variable [DecidableEq N]

theorem frame_free (hcl : ∀ c, g.cl = some c → s.rpccs c = some g.m) : Frame i g.m s (s.free i g) := by
  have hdelete : Frame i g.m s (match g.cl with | some c => s.setRpcc c none | none => s) := by
    split
    · exact frame_deleteRpcc (hcl _ ‹_›) i
    · exact Frame.refl i g.m s
  have hinfos := hdelete.trans (frame_setHinfo _ i g.m none)
  exact { hinfos with hmap := fun m' hm => (Function.update_of_ne hm _ _).trans (hinfos.hmap m' hm) }

theorem Ok.free (h : Ok s) (hi : s.hinfos i = some g) (hzero : g.refcnt = 0) : Ok (s.free i g) := by
  have hg := h.hinfo i g hi
  have hgone : (s.free i g).hinfos i = none := Function.update_self ..
  refine h.of_frame (frame_free hg.cl) (fun j g' hj hm => h.name_inj hi hj hm) ?_ ?_ ?_
    fun m hm => h.hmap_ne hi hm
  · intro j hj
    have hnone : (s.free i g).hmap g.m = none := Function.update_self ..
    rw [hnone] at hj
    cases hj
  · intro g' hg'
    rw [hgone] at hg'
    cases hg'
  · intro x o hx ho
    have hpointers : s.pointers i = 0 := by
      have := hg.counted
      omega
    have hx' : s.obj x = some o := by
      have hobjs : (s.free i g).objs = s.objs := by
        unfold Handles.free
        split <;> rfl
      rwa [obj, hobjs] at hx
    exact absurd ho (pointers_eq_zero.mp hpointers x o hx')

theorem Ok.create (h : Ok s) {m : N} (hm : s.hmap m = none) : Ok (s.create m) := by
  -- nothing has the new address
  have hfresh : s.hinfos s.nhinfo = none := by
    cases hi : s.hinfos s.nhinfo with
    | none => rfl
    | some g => exact absurd (h.hinfo _ g hi).old (Nat.lt_irrefl _)
  have hunused : ∀ x o, s.obj x = some o → o.h ≠ some s.nhinfo := by
    intro x o hx ho
    obtain ⟨g, hi, -⟩ := h.points x o _ hx ho
    rw [hfresh] at hi
    cases hi
  have hobj := frame_addObj s s.nhinfo m
  have hf : Frame s.nhinfo m s (s.create m) := by
    have hinfos := hobj.trans (frame_setHinfo _ s.nhinfo m (some (Hinfo.new m)))
    refine { hinfos with hmap := fun m' hm => (Function.update_of_ne hm _ _).trans (hinfos.hmap m' hm),
                         nhinfo := Nat.le_succ _ }
  have hnew : (s.create m).hinfos s.nhinfo = some (Hinfo.new m) := Function.update_self ..
  have hmapped : (s.create m).hmap m = some s.nhinfo := Function.update_self ..
  refine h.of_frame hf ?_ ?_ ?_ ?_ ?_
  · rintro j g hj rfl
    have := (h.hinfo j g hj).mapped
    rw [hm] at this
    cases this
  · intro j hj
    rw [hmapped] at hj
    cases hj
    exact ⟨_, hnew, rfl⟩
  · intro g hg
    rw [hnew] at hg
    cases hg
    refine ⟨hmapped, ?_, Nat.lt_succ_self _, by rintro _ ⟨⟩, by rintro _ _ ⟨⟩⟩
    show 1 = (((s.addObj (some s.nhinfo)).pointers s.nhinfo : Nat) : Int)
    rw [pointers_addObj, if_pos rfl, pointers_eq_zero.mpr hunused]
    rfl
  · intro x o hx ho
    refine ⟨_, hnew, ?_⟩
    change (s.addObj (some s.nhinfo)).obj x = some o at hx
    rw [obj_addObj] at hx
    split at hx
    · cases hx
      simp
    · exact absurd ho (hunused x o hx)
  · intro m' hm' hmap
    obtain ⟨g, hi, -⟩ := h.hmap m' _ hmap
    rw [hfresh] at hi
    cases hi

/-! ## The steps -/

/-- What a step does when nothing that was freed is used. -/
inductive Step (s : Handles N) : Handles N → List HandleEvent → Prop where
  /-- The first handle of a name. -/
  | create {m : N} (hm : s.hmap m = none) : Step s (s.create m) [.obtained s.objs.length s.nhinfo]
  /-- Another handle. -/
  | share {i : Nat} {g : Hinfo N} (hi : s.hinfos i = some g) (hdel : g.del = false) :
      Step s ((s.addObj (some i)).setHinfo i (some { g with refcnt := g.refcnt + 1 }))
        [.obtained s.objs.length i]
  /-- A handle that gets nothing. -/
  | refuse : Step s (s.addObj none) []
  | idle : Step s s []
  | isNull {x : Nat} {o : HandleObj} (hx : s.obj x = some o) (ho : o.h = none) :
      Step s s [.bound x none]
  | isDeleted {x i : Nat} {o : HandleObj} {g : Hinfo N} (hx : s.obj x = some o) (ho : o.h = some i)
      (hi : s.hinfos i = some g) (hmutex : g.clMutex = none) (hdel : g.del = true) :
      Step s s [.bound x none]
  | isBound {x i c : Nat} {o : HandleObj} {g : Hinfo N} (hx : s.obj x = some o) (ho : o.h = some i)
      (hi : s.hinfos i = some g) (hdel : g.del = false) (hcl : g.cl = some c) :
      Step s (s.setObj x (some { o with got := c :: o.got })) [.bound x (some c)]
  | bind {x i : Nat} {o : HandleObj} {g : Hinfo N} (hx : s.obj x = some o) (ho : o.h = some i)
      (hi : s.hinfos i = some g) (hdel : g.del = false) (hcl : g.cl = none) :
      Step s ({ s.setRpcc s.nrpcc (some g.m) with nrpcc := s.nrpcc + 1 }.setHinfo i
        (some { g with clMutex := some (x, s.nrpcc) })) []
  | bound {x i c : Nat} {o : HandleObj} {g : Hinfo N} (hx : s.obj x = some o) (ho : o.h = some i)
      (hi : s.hinfos i = some g) (hmutex : g.clMutex = some (x, c)) :
      Step s ((s.setObj x (some { o with got := c :: o.got })).setHinfo i
        (some { g with cl := some c, clMutex := none })) [.bound x (some c)]
  | failed {x i c : Nat} {o : HandleObj} {g : Hinfo N} (hx : s.obj x = some o) (ho : o.h = some i)
      (hi : s.hinfos i = some g) (hmutex : g.clMutex = some (x, c)) :
      Step s ((s.setRpcc c none).setHinfo i (some { g with del := true, clMutex := none }))
        [.failed i, .bound x g.cl]
  | dropNull {x : Nat} {o : HandleObj} (hx : s.obj x = some o) (ho : o.h = none) :
      Step s (s.setObj x none) []
  | drop {x i : Nat} {o : HandleObj} {g : Hinfo N} (hx : s.obj x = some o) (ho : o.h = some i)
      (hi : s.hinfos i = some g) (hmutex : ∀ c, g.clMutex ≠ some (x, c)) : Step s (s.drop x i g) []
  | dropLast {x i : Nat} {o : HandleObj} {g : Hinfo N} (hx : s.obj x = some o) (ho : o.h = some i)
      (hi : s.hinfos i = some g) (hmutex : ∀ c, g.clMutex ≠ some (x, c)) (hlast : g.refcnt - 1 = 0) :
      Step s ((s.drop x i g).free i { g with refcnt := g.refcnt - 1 }) []
  | free {i : Nat} {g : Hinfo N} (hi : s.hinfos i = some g) (hzero : g.refcnt = 0) :
      Step s (s.free i g) [.deleted i]
  | mark {i : Nat} {g : Hinfo N} (hi : s.hinfos i = some g) :
      Step s (s.setHinfo i (some { g with del := true })) [.deleted i]

theorem ok_of_step {es : List HandleEvent} (h : Ok s) (hstep : Step s s' es) : Ok s' := by
  cases hstep with
  | create hm => exact h.create hm
  | share hi => exact h.share hi
  | refuse => exact h.refuse
  | idle | isNull | isDeleted => exact h
  | isBound hx ho hi _ hcl => exact h.isBound hx ho hi hcl
  | bind hx ho hi _ hcl => exact h.bind hx ho hi hcl
  | bound hx ho hi hmutex => exact h.bound hx ho hi hmutex
  | failed _ _ hi hmutex => exact h.failed hi hmutex
  | dropNull hx ho => exact h.dropNull hx ho
  | drop hx ho hi hmutex => exact h.drop hx ho hi hmutex
  | dropLast hx ho hi hmutex hlast =>
    exact (h.drop hx ho hi hmutex).free (Function.update_self ..) hlast
  | free hi hzero => exact h.free hi hzero
  | mark hi => exact h.mark hi

theorem deleteHandleWo_none (hm : s.hmap m = none) : s.deleteHandleWo m = some s := by
  simp only [deleteHandleWo, hm]

/-- `delete_handle_wo` for the name of the `hinfo` at `i`. -/
theorem Ok.deleteHandleWo (h : Ok s) (hi : s.hinfos i = some g) : s.deleteHandleWo g.m =
    some (if g.refcnt = 0 then s.free i g else s.setHinfo i (some { g with del := true })) := by
  have hg := h.hinfo i g hi
  simp only [Handles.deleteHandleWo, hg.mapped, hi]
  split
  · unfold Handles.free
    cases hcl : g.cl with
    | none => rfl
    | some c => simp [deleteRpcc, hg.cl c hcl]
  · rfl

theorem Ok.step_of_construct (h : Ok s) {es : List HandleEvent}
    (hn : s.next (.construct m) = some (s', es)) :
    Step s s' es := by
  simp only [next, getHandle] at hn
  cases hm : s.hmap m with
  | none =>
      simp only [hm] at hn
      cases hn
      exact .create hm
  | some i =>
      obtain ⟨g, hi, -⟩ := h.hmap m i hm
      simp only [hm, hi] at hn
      split at hn
      · rename_i heq
        split at heq <;> cases heq
      · rename_i heq
        split at heq
        · cases heq
        · cases heq
          cases hn
          exact .refuse
      · rename_i heq
        split at heq
        · rename_i hdel
          cases heq
          cases hn
          exact .share hi hdel
        · cases heq

theorem Ok.step_of_safebind (h : Ok s) {es : List HandleEvent} (hx : s.obj x = some o)
    (hn : s.safebind x o = some (s', es)) : Step s s' es := by
  obtain ⟨p, got⟩ := o
  cases p with
  | none =>
      cases hn
      exact .isNull hx rfl
  | some i =>
      obtain ⟨g, hi, -⟩ := h.points x _ i hx rfl
      simp only [safebind, hi] at hn
      split at hn
      · cases hn
      rename_i hmutex
      split at hn
      · rename_i hdel
        cases hn
        exact .isDeleted hx rfl hi (by simpa using hmutex) hdel
      · rename_i hdel
        split at hn
        · rename_i hcl
          cases hn
          exact .isBound hx rfl hi (by simpa using hdel) hcl
        · rename_i hcl
          cases hn
          exact .bind hx rfl hi (by simpa using hdel) hcl

theorem Ok.step_of_bound (h : Ok s) {es : List HandleEvent} {ret : Int} (hx : s.obj x = some o)
    (hn : s.bound x o ret = some (s', es)) : Step s s' es := by
  obtain ⟨p, got⟩ := o
  cases p with
  | none => cases hn
  | some i =>
      obtain ⟨g, hi, -⟩ := h.points x _ i hx rfl
      simp only [Handles.bound, hi] at hn
      split at hn
      · cases hn
      rename_i y c hmutex
      obtain ⟨-, hc, -⟩ := (h.hinfo i g hi).binding y c hmutex
      split at hn
      · cases hn
      rename_i hy
      obtain rfl : y = x := by simpa using hy
      split at hn
      · simp only [deleteRpcc, hc] at hn
        cases hn
        exact .failed hx rfl hi hmutex
      · cases hn
        exact .bound hx rfl hi hmutex

theorem Ok.step_of_destruct (h : Ok s) {es : List HandleEvent} (hx : s.obj x = some o)
    (hn : s.destruct x o = some (s', es)) : Step s s' es := by
  unfold destruct at hn
  cases ho : o.h with
  | none =>
      simp only [ho] at hn
      cases hn
      exact .dropNull hx ho
  | some i =>
      obtain ⟨g, hi, -⟩ := h.points x o i hx ho
      simp only [ho, hi, Option.any_some] at hn
      split at hn
      · cases hn
      rename_i hany
      have hmutex : ∀ c, g.clMutex ≠ some (x, c) := by
        intro c hc
        simp [hc] at hany
      have hdone : (s.setObj x none).doneHandle i =
          if g.refcnt - 1 = 0 ∧ g.del = true then (s.drop x i g).deleteHandleWo g.m
          else some (s.drop x i g) := by
        have hi' : (s.setObj x none).hinfos i = some g := hi
        simp only [doneHandle, hi']
        rfl
      rw [hdone] at hn
      by_cases hlast : g.refcnt - 1 = 0 ∧ g.del = true
      · have hdelete := (h.drop hx ho hi hmutex).deleteHandleWo (i := i)
          (g := { g with refcnt := g.refcnt - 1 }) (Function.update_self ..)
        rw [if_pos hlast, hdelete, if_pos hlast.1] at hn
        cases hn
        exact .dropLast hx ho hi hmutex hlast.1
      · rw [if_neg hlast] at hn
        cases hn
        exact .drop hx ho hi hmutex

theorem Ok.step_of_deleteHandle (h : Ok s) {es : List HandleEvent}
    (hn : s.next (.deleteHandle m) = some (s', es)) : Step s s' es := by
  cases hm : s.hmap m with
  | none =>
      simp only [next, deleteHandleWo_none hm, hm] at hn
      cases hn
      exact .idle
  | some i =>
      obtain ⟨g, hi, rfl⟩ := h.hmap m i hm
      simp only [next, h.deleteHandleWo hi, hm] at hn
      cases hn
      split
      · exact .free hi ‹_›
      · exact .mark hi

/-- While nothing that was freed is used, the next step does not either. -/
theorem Ok.step_of_next (h : Ok s) {a : HandleAction N} {es : List HandleEvent}
    (hn : s.next a = some (s', es)) : Step s s' es := by
  cases a with
  | construct m => exact h.step_of_construct hn
  | safebind x =>
      obtain ⟨o, hx, hn⟩ := Option.bind_eq_some_iff.mp hn
      exact h.step_of_safebind hx hn
  | bound x ret =>
      obtain ⟨o, hx, hn⟩ := Option.bind_eq_some_iff.mp hn
      exact h.step_of_bound hx hn
  | call x c =>
      obtain ⟨o, hx, hn⟩ := Option.bind_eq_some_iff.mp hn
      split at hn
      · rename_i hc
        cases ho : o.h with
        | none =>
            rw [h.null x o hx ho] at hc
            cases hc
        | some i =>
            obtain ⟨g, hi, hgot⟩ := h.points x o i hx ho
            rw [(h.hinfo i g hi).cl c (hgot c hc)] at hn
            cases hn
            exact .idle
      · cases hn
  | destruct x =>
      obtain ⟨o, hx, hn⟩ := Option.bind_eq_some_iff.mp hn
      exact h.step_of_destruct hx hn
  | deleteHandle m => exact h.step_of_deleteHandle hn

end Handles

end Yfs.Rpc
