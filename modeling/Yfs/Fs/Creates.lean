import Yfs.Fs.Calls

/-!
# Concurrent creates lose nothing and duplicate nothing

A thread that creates a file reads the text of the directory, looks for the name, and puts the text
back with one entry more, all under the lock of the directory. So as long as a thread is in between,
the text is what it has read (`CallPc.Ok`), and the text is at all times that of the entries that
were there before the run and of those the threads have stored since (`Safe.step`). What a thread has
stored it returns OK for (`books_resume`), and a name that has been stored is found by every later
`create`.
-/

namespace Yfs.Fs

open Yfs.Lib Yfs.Extents
open Yfs.Lock (Act ClientId)
open Yfs.Rpc (Bytes)

/-! ## What a run has done -/

/-- Who has stored which entry. -/
def stored (τ : List CallEvent) : List (Act × Entry) :=
  τ.filterMap fun ev => match ev with
    | .stored a e => some (a, e)
    | _ => none

/-- To whom `create` has returned OK, and for which entry. -/
def created (τ : List CallEvent) : List (Act × Entry) :=
  τ.filterMap fun ev => match ev with
    | .returned a e .ok => some (a, e)
    | _ => none

/-- Who has called `create`. -/
def callers (τ : List CallEvent) : List Act :=
  τ.filterMap fun ev => match ev with
    | .called a => some a
    | _ => none

/-- To whom `create` has returned. -/
def returners (τ : List CallEvent) : List Act :=
  τ.filterMap fun ev => match ev with
    | .returned a _ _ => some a
    | _ => none

/-- All calls of `create` have returned. -/
def AllReturned (τ : List CallEvent) : Prop := (callers τ).Perm (returners τ)

def entries (l : List (Act × Entry)) : List Entry := l.map Prod.snd

/-- When all calls have returned, the text that is read can be read as one list of entries only:
those there were before, and one for each `create` that has returned OK. No other entry has one of
the new names. -/
def ReadsCreated (before : List Entry) (pre : List CallEvent) : CallEvent → Prop
  | .read _ buf => AllReturned pre → ∃ new, new.Perm (entries (created pre)) ∧
      (∀ e ∈ new, (names (before ++ new)).count e.name = 1) ∧
      ∀ es, (∀ e ∈ es, slash ∉ e.name) → (content es = buf ↔ es = before ++ new)
  | _ => True

section

variable {τ es : List CallEvent}

@[simp] theorem stored_append : stored (τ ++ es) = stored τ ++ stored es := by simp [stored]

@[simp] theorem created_append : created (τ ++ es) = created τ ++ created es := by simp [created]

@[simp] theorem callers_append : callers (τ ++ es) = callers τ ++ callers es := by simp [callers]

@[simp] theorem returners_append : returners (τ ++ es) = returners τ ++ returners es := by
  simp [returners]

@[simp] theorem entries_append {l k : List (Act × Entry)} :
    entries (l ++ k) = entries l ++ entries k := by simp [entries]

end

/-! ## What a place in a call owes -/

/-- The thread an event is about. -/
def CallEvent.act : CallEvent → Act
  | .called a | .stored a _ | .returned a _ _ | .read a _ => a

/-- The entry that has been stored and that `create` has yet to return OK for. -/
def CallPc.due : CallPc → Option Entry
  | .unlockNum name rand ret => if ret = .ok then some ⟨randInum true rand, name⟩ else none
  | .unlockParent (.create name rand) ret =>
      if ret = .ok then some ⟨randInum true rand, name⟩ else none
  | _ => none

def CallPc.creating : CallPc → Bool
  | .idle | .lockParent .getdata | .get .getdata | .unlockParent .getdata _ => false
  | _ => true

/-- The books balance: what a thread has stored it has returned OK for, or will. -/
structure Balanced (τ : List CallEvent) (pc : Act → CallPc) : Prop where
  due : ∀ a e, (stored τ).count (a, e) =
    (created τ).count (a, e) + if (pc a).due = some e then 1 else 0
  calls : ∀ a, (callers τ).count a = (returners τ).count a + if (pc a).creating then 1 else 0

variable {parent : Inum} {s s' : DirState} {a b : Act} {x : CacheAction} {p p' : CallPc} {r : Answer}
  {e : Entry} {before es : List Entry} {evs τ : List CallEvent} {t : CacheState}
  {pc : Act → CallPc}

theorem Status.ofExtent_eq_ok {ret : Extents.Status} : Status.ofExtent ret = .ok ↔ ret = .ok := by
  cases ret <;> simp [Status.ofExtent]

/-- Thread `a` goes from `p` to `p'` and the events `evs` say why. -/
structure Books (a : Act) (p p' : CallPc) (evs : List CallEvent) : Prop where
  own : ∀ ev ∈ evs, ev.act = a
  due : ∀ e, (stored evs).count (a, e) + (if p.due = some e then 1 else 0) =
    (created evs).count (a, e) + if p'.due = some e then 1 else 0
  calls : (callers evs).count a + (if p.creating then 1 else 0) =
    (returners evs).count a + if p'.creating then 1 else 0

theorem Books.other (h : Books a p p' evs) (hb : b ≠ a) :
    (∀ e, (b, e) ∉ stored evs ∧ (b, e) ∉ created evs) ∧ b ∉ callers evs ∧ b ∉ returners evs := by
  have hno : ∀ ev ∈ evs, ev.act ≠ b := by
    intro ev hev hact
    exact hb (hact.symm.trans (h.own ev hev))
  refine ⟨fun e => ⟨?_, ?_⟩, ?_, ?_⟩ <;> intro hmem <;>
    obtain ⟨ev, hev, heq⟩ := List.mem_filterMap.mp hmem <;>
    refine hno ev hev ?_ <;> split at heq <;> cases heq <;> rfl

theorem Balanced.step (h : Balanced τ pc) (hbooks : Books a (pc a) p' evs) :
    Balanced (τ ++ evs) (Function.update pc a p') := by
  constructor
  case due =>
    intro b e
    have hold := h.due b e
    rw [stored_append, created_append, List.count_append, List.count_append]
    by_cases hb : b = a
    · subst hb
      have hstep := hbooks.due e
      rw [Function.update_self]
      omega
    · obtain ⟨hs, hc⟩ := (hbooks.other hb).1 e
      rw [Function.update_of_ne hb, List.count_eq_zero.mpr hs, List.count_eq_zero.mpr hc]
      omega
  case calls =>
    intro b
    have hold := h.calls b
    rw [callers_append, returners_append, List.count_append, List.count_append]
    by_cases hb : b = a
    · subst hb
      have hstep := hbooks.calls
      rw [Function.update_self]
      omega
    · obtain ⟨hc, hr⟩ := (hbooks.other hb).2
      rw [Function.update_of_ne hb, List.count_eq_zero.mpr hc, List.count_eq_zero.mpr hr]
      omega

/-- A move of which nothing is seen, and after which as much is due as before. -/
theorem books_quiet (hdue : p'.due = p.due) (hcreating : p'.creating = p.creating) :
    Books a p p' [] := by
  constructor
  case own => simp
  case due =>
    intro e
    rw [hdue]
    rfl
  case calls =>
    rw [hcreating]
    rfl

theorem books_read (buf : Bytes) (hdue : p'.due = p.due) (hcreating : p'.creating = p.creating) :
    Books a p p' [.read a buf] := by
  constructor
  case own => simp [CallEvent.act]
  case due =>
    intro e
    rw [hdue]
    rfl
  case calls =>
    rw [hcreating]
    rfl

/-- The entry that is stored becomes due. -/
theorem books_stored {e : Entry} (hold : p.due = none) (hdue : p'.due = some e)
    (hcreating : p'.creating = p.creating) : Books a p p' [.stored a e] := by
  constructor
  case own => simp [CallEvent.act]
  case due =>
    intro e'
    rw [hold, hdue]
    simp [stored, created, List.count_singleton]
  case calls =>
    rw [hcreating]
    rfl

/-- A call that ends returns OK for the entry that is due. -/
theorem books_returned {name : Bytes} {rand : UInt32} {ret : Status} :
    Books a (.unlockParent (.create name rand) ret) .idle
      [.returned a ⟨randInum true rand, name⟩ ret] := by
  constructor
  case own => simp [CallEvent.act]
  case due =>
    intro e
    cases ret <;> simp [stored, created, CallPc.due, List.count_singleton]
  case calls => simp [callers, returners, CallPc.creating]

/-- Only a thread that has stored an entry goes on to return OK, and only `unlockParent` ends a
call. -/
theorem books_resume : Books a p (p.resume r) (p.events a r) := by
  have hfailed : r.ret ≠ .ok → Status.ofExtent r.ret ≠ .ok := mt Status.ofExtent_eq_ok.mp
  cases p with
  | idle | lockNum | unlockNum => exact books_quiet rfl rfl
  | lockParent c => cases c <;> exact books_quiet rfl rfl
  | get c =>
      cases c with
      | create name rand =>
          simp only [CallPc.resume, CallPc.events]
          split
          · exact books_quiet (if_neg (hfailed ‹_›)) rfl
          · split <;> exact books_quiet rfl rfl
      | getdata =>
          simp only [CallPc.resume, CallPc.events]
          split
          · exact books_read _ rfl rfl
          · exact books_quiet rfl rfl
  | putNum name rand b =>
      simp only [CallPc.resume, CallPc.events]
      split
      · exact books_quiet (if_neg (hfailed ‹_›)) rfl
      · exact books_quiet rfl rfl
  | putParent name rand b =>
      by_cases hr : r.ret = .ok
      · rw [CallPc.events, CallPc.resume, if_pos hr, if_neg (not_not_intro hr)]
        exact books_stored rfl rfl rfl
      · rw [CallPc.events, CallPc.resume, if_neg hr, if_pos hr]
        exact books_quiet (if_neg (hfailed hr)) rfl
  | unlockParent c ret =>
      cases c with
      | create name rand =>
          rw [CallPc.events, randInum_and]
          exact books_returned
      | getdata => exact books_quiet rfl rfl

theorem Balanced.call {c : Call} (h : Balanced τ s.pc) (hidle : s.pc a = .idle)
    (hn : s.call parent a c = some (s', evs)) : Balanced (τ ++ evs) s'.pc := by
  have hsame : Function.update s.pc a .idle = s.pc := by
    rw [← hidle]
    exact Function.update_eq_self a s.pc
  cases c with
  | create name rand =>
      simp only [DirState.call] at hn
      split at hn
      · cases hn
      · split at hn <;> cases hn
        · refine h.step ?_
          constructor
          case own => simp [CallEvent.act]
          case due => simp [hidle, stored, created, CallPc.due]
          case calls => simp [hidle, callers, returners, CallPc.creating]
        · -- not a directory: the call returns at once
          rw [← hsame]
          refine h.step ?_
          constructor
          case own => simp [CallEvent.act]
          case due => simp [hidle, stored, created, CallPc.due]
          case calls => simp [hidle, callers, returners, CallPc.creating]
  | getdata =>
      cases hn
      refine h.step ?_
      rw [hidle]
      exact books_quiet rfl rfl

/-- What has been returned OK has been stored. -/
theorem Balanced.created_subperm (h : Balanced τ pc) : List.Subperm (created τ) (stored τ) := by
  rw [List.subperm_ext_iff]
  rintro ⟨a, e⟩ -
  rw [h.due a e]
  exact Nat.le_add_right _ _

/-- When all calls have returned, the two are the same. -/
theorem Balanced.perm (h : Balanced τ pc) (hall : AllReturned τ) : (stored τ).Perm (created τ) := by
  rw [List.perm_iff_count]
  rintro ⟨a, e⟩
  have hcount := h.calls a
  rw [hall.count_eq] at hcount
  have hidle : (pc a).creating = false := by
    by_contra hc
    simp [hc] at hcount
  have hdue : (pc a).due = none := by
    cases hp : pc a with
    | unlockParent c ret =>
        cases c with
        | create name rand => simp [hp, CallPc.creating] at hidle
        | getdata => rfl
    | unlockNum => simp [hp, CallPc.creating] at hidle
    | _ => rfl
  rw [h.due a e, hdue]
  simp

/-! ## The text of the directory -/

/-- What `create` checks of its arguments. -/
def Call.Ok (parent : Inum) : Call → Prop
  | .create name _ => isdir parent = true ∧ slash ∉ name
  | .getdata => True

/-- What is known of a thread when the directory has the entries `es`. From `get` to `put` it holds
the lock, and the text it has read is still that of the directory. -/
def CallPc.Ok (parent : Inum) (t : CacheState) (a : Act) (es : List Entry) : CallPc → Prop
  | .idle | .unlockParent _ _ => True
  | .lockParent c => c.Ok parent
  | .get c => c.Ok parent ∧ t.lock.pc a = .holding ∧ (t.op a).getting = true
  | .lockNum name rand b | .putNum name rand b | .putParent name rand b =>
      (Call.create name rand).Ok parent ∧ t.lock.pc a = .holding ∧ b = content es ∧ name ∉ names es
  | .unlockNum name rand _ => (Call.create name rand).Ok parent

/-- The directory has the entries `es`. -/
structure Safe (parent : Inum) (es : List Entry) (s : DirState) : Prop where
  cache : ∃ ph, CacheInv (s.world parent) ph (some (content es))
  thread : ∀ a, (s.pc a).Ok parent (s.world parent) a es

theorem CallPc.Ok.frame {t t' : CacheState} (h : p.Ok parent t a es)
    (hframe : t'.lock.pc a = t.lock.pc a ∧ t'.op a = t.op a) : p.Ok parent t' a es := by
  obtain ⟨hpc, hop⟩ := hframe
  cases p <;> simp only [CallPc.Ok, hpc, hop] at h ⊢ <;> exact h

/-- Thread `a` takes a step and goes on at `p`. -/
theorem safe_of_step (hworld : s'.world parent = t) (hpc : s'.pc = Function.update s.pc a p)
    (hcache : ∃ ph, CacheInv t ph (some (content es)))
    (hother : ∀ b, b ≠ a → (s.pc b).Ok parent t b es) (hp : p.Ok parent t a es) :
    Safe parent es s' := by
  constructor
  case cache =>
    rw [hworld]
    exact hcache
  case thread =>
    intro b
    rw [hworld, hpc]
    by_cases hb : b = a
    · rw [hb, Function.update_self]
      exact hp
    · rw [Function.update_of_ne hb]
      exact hother b hb

/-- A thread works on the directory and puts nothing. -/
theorem Safe.move (h : Safe parent es s)
    (hcache : ∃ ph, CacheInv t ph (some (content es)))
    (hother : ∀ b, b ≠ a → t.lock.pc b = (s.world parent).lock.pc b ∧
      t.op b = (s.world parent).op b)
    (hp : p.Ok parent t a es) : Safe parent es ((s.setWorld parent t).setPc a p) :=
  safe_of_step (Function.update_self ..) rfl hcache
    (fun b hb => (h.thread b).frame (hother b hb)) hp

/-- A thread works on its new file. -/
theorem Safe.moveNum {num : Inum} (h : Safe parent es s) (hnum : num ≠ parent)
    (hp : p.Ok parent (s.world parent) a es) :
    Safe parent es ((s.setWorld num t).setPc a p) :=
  safe_of_step (Function.update_of_ne (Ne.symm hnum) _ _) rfl h.cache (fun b _ => h.thread b) hp

/-- The thread that holds the lock puts a text. -/
theorem Safe.put {fs : List Entry} (h : Safe parent es s)
    (ha : (s.world parent).lock.pc a = .holding)
    (hcache : ∃ ph, CacheInv t ph (some (content fs)))
    (hother : ∀ b, b ≠ a → t.lock.pc b = (s.world parent).lock.pc b ∧
      t.op b = (s.world parent).op b)
    (hp : p.Ok parent t a fs) : Safe parent fs ((s.setWorld parent t).setPc a p) := by
  apply safe_of_step (Function.update_self ..) rfl hcache ?_ hp
  intro b hb
  have hok : (s.pc b).Ok parent t b es := (h.thread b).frame (hother b hb)
  -- nobody else is between `get` and `put`
  have hno : t.lock.pc b ≠ .holding := by
    intro hholds
    rw [(hother b hb).1] at hholds
    obtain ⟨ph, hinv⟩ := h.cache
    have hsite : ∀ c, (s.world parent).lock.pc c = .holding →
        ((s.world parent).lock.pc c).site c = some c.1 := by
      intro c hc
      rw [hc]
      rfl
    exact hb (hinv.lock.site_unique (hsite b hholds) (hsite a ha)).1
  show (s.pc b).Ok parent t b fs
  cases hq : s.pc b with
  | lockNum | putNum | putParent =>
      rw [hq] at hok
      exact absurd hok.2.1 hno
  | _ =>
      rw [hq] at hok
      exact hok

theorem next_step_eq_some (hn : s.next parent (.step a x) = some (s', evs)) :
    ∃ q t ans, (s.pc a).request parent = some q ∧ q.step a (s.world q.id) x = some (t, ans) ∧
      s' = (s.setWorld q.id t).setPc a (ans.elim (s.pc a) fun r => (s.pc a).resume r) ∧
      evs = ans.elim [] fun r => (s.pc a).events a r := by
  simp only [DirState.next, Option.bind_eq_bind, Option.bind_eq_some_iff] at hn
  obtain ⟨q, hq, ⟨t, ans⟩, hstep, hn⟩ := hn
  refine ⟨q, t, ans, hq, hstep, ?_⟩
  cases ans with
  | none =>
      cases hn
      simp [DirState.setPc, DirState.setWorld]
  | some r =>
      cases hn
      exact ⟨rfl, rfl⟩

/-- What a step that emits `evs` has done to a directory with the entries `es`. -/
structure StepOk (parent : Inum) (es : List Entry) (s' : DirState) (evs : List CallEvent) :
    Prop where
  safe : Safe parent (es ++ entries (stored evs)) s'
  read : ∀ b buf, .read b buf ∈ evs → evs = [.read b buf] ∧ buf = content es
  fresh : ∀ e ∈ entries (stored evs), slash ∉ e.name ∧ e.name ∉ names es
  nodup : (names (entries (stored evs))).Nodup

theorem Safe.stepOk (h : Safe parent es s') (hstored : stored evs = [])
    (hread : ∀ b buf, .read b buf ∈ evs → evs = [.read b buf] ∧ buf = content es) :
    StepOk parent es s' evs := by
  constructor
  case safe => simpa [hstored, entries] using h
  case read => exact hread
  case fresh => simp [hstored, entries]
  case nodup => simp [hstored, entries, names]

/-- A step of which nothing is seen. -/
theorem Safe.quiet (h : Safe parent es s') : StepOk parent es s' [] :=
  h.stepOk rfl (by simp)

/-- A call goes on with the text of the directory. -/
theorem ok_resume_get {c : Call} (hslash : ∀ e ∈ es, slash ∉ e.name) (hcall : c.Ok parent)
    (hholds : t.lock.pc a = .holding) (hbuf : r.ret = .ok → r.buf = content es) :
    ((CallPc.get c).resume r).Ok parent t a es := by
  cases c with
  | create name rand =>
      simp only [CallPc.resume]
      split
      · trivial
      · rename_i hr
        split
        · trivial
        · rename_i hfind
          have hbuf := hbuf (not_not.mp hr)
          refine ⟨hcall, hholds, hbuf, ?_⟩
          -- the name is not there, or it would have been found
          intro hmem
          apply hfind
          rw [hbuf]
          exact find_content_isSome hslash hmem
  | getdata => trivial

/-- All that an observer sees of `get` is the text that `getdata` reads. -/
theorem events_get {c : Call} (hbuf : r.ret = .ok → r.buf = content es) :
    (CallPc.get c).events a r = [] ∨ (CallPc.get c).events a r = [.read a (content es)] := by
  cases c with
  | create name rand => exact .inl rfl
  | getdata =>
      simp only [CallPc.events]
      split
      · rename_i hr
        rw [hbuf hr]
        exact .inr rfl
      · exact .inl rfl

theorem Safe.stepOk_get {c : Call} (h : Safe parent es s')
    (hbuf : r.ret = .ok → r.buf = content es) :
    StepOk parent es s' ((CallPc.get c).events a r) := by
  rcases events_get (c := c) (a := a) hbuf with hevs | hevs
  · rw [hevs]
    exact h.quiet
  · rw [hevs]
    apply h.stepOk rfl
    intro b buf hmem
    obtain ⟨rfl, rfl⟩ := CallEvent.read.inj (List.mem_singleton.mp hmem)
    exact ⟨rfl, rfl⟩

theorem Safe.step (h : Safe parent es s) (hslash : ∀ e ∈ es, slash ∉ e.name)
    (hn : s.next parent (.step a x) = some (s', evs)) : StepOk parent es s' evs := by
  obtain ⟨q, t, ans, hq, hstep, rfl, rfl⟩ := next_step_eq_some hn
  obtain ⟨ph, hinv⟩ := h.cache
  have hok := h.thread a
  have hother := fun b => ClientReq.step_other (b := b) hstep
  generalize s.pc a = p at hq hok ⊢
  cases p with
  | idle => cases hq
  | lockParent c =>
      cases hq
      obtain ⟨hcache, hholds⟩ := hinv.acquire hstep
      cases ans with
      | none => exact (h.move (p := .lockParent c) hcache hother hok).quiet
      | some r =>
          obtain ⟨hholds, hop⟩ := hholds rfl
          have hget : CallPc.Ok parent t a es (.get c) := ⟨hok, hholds, by rw [hop]; rfl⟩
          exact (h.move hcache hother hget).quiet
  | get c =>
      cases hq
      obtain ⟨hcall, hholds, hop⟩ := hok
      obtain ⟨hcache, hholds, hop, hans⟩ := hinv.get hholds hop hstep
      cases ans with
      | none =>
          have hget : CallPc.Ok parent t a es (.get c) := ⟨hcall, hholds, hop⟩
          exact (h.move hcache hother hget).quiet
      | some r =>
          have hbuf : r.ret = .ok → r.buf = content es := by
            intro hr
            exact (Option.some.inj (hans r rfl hr)).symm
          exact (h.move hcache hother (ok_resume_get hslash hcall hholds hbuf)).stepOk_get hbuf
  | lockNum name rand b =>
      cases hq
      have hnum := randInum_ne hok.1.1 rand
      cases ans with
      | none => exact (h.moveNum (p := .lockNum name rand b) hnum hok).quiet
      | some r =>
          exact (h.moveNum (p := .putNum name rand b) hnum hok).quiet
  | putNum name rand b =>
      cases hq
      have hnum := randInum_ne hok.1.1 rand
      cases ans with
      | none => exact (h.moveNum (p := .putNum name rand b) hnum hok).quiet
      | some r =>
          refine (h.moveNum hnum ?_).quiet
          simp only [Option.elim, CallPc.resume]
          split
          · exact hok.1
          · exact hok
  | putParent name rand b =>
      cases hq
      obtain ⟨hcache, hholds, -, rfl⟩ := hinv.put hstep
      obtain ⟨hcall, -, rfl, hname⟩ := hok
      rw [content_concat] at hcache
      constructor
      case safe => exact h.put hholds hcache hother hcall
      case read => simp [CallPc.events]
      case fresh => simpa [CallPc.events, stored, entries] using ⟨hcall.2, hname⟩
      case nodup => simp [CallPc.events, stored, entries, names]
  | unlockNum name rand ret =>
      cases hq
      have hnum := randInum_ne hok.1 rand
      cases ans with
      | none => exact (h.moveNum (p := .unlockNum name rand ret) hnum hok).quiet
      | some r =>
          exact (h.moveNum (p := .unlockParent (.create name rand) ret) hnum trivial).quiet
  | unlockParent c ret =>
      cases hq
      have hcache := hinv.release hstep
      cases ans with
      | none =>
          exact (h.move (p := .unlockParent c ret) hcache hother trivial).quiet
      | some r =>
          refine (h.move (p := .idle) hcache hother trivial).stepOk ?_ ?_
          · cases c <;> rfl
          · cases c <;> simp [CallPc.events]

theorem Safe.call {c : Call} (h : Safe parent es s)
    (hn : s.call parent a c = some (s', evs)) : StepOk parent es s' evs := by
  cases c with
  | create name rand =>
      simp only [DirState.call] at hn
      split at hn
      · cases hn
      · rename_i hname
        rw [not_or] at hname
        split at hn <;> cases hn
        · rename_i hdir
          have hsafe : Safe parent es (s.setPc a (.lockParent (.create name rand))) :=
            safe_of_step rfl rfl h.cache (fun b _ => h.thread b) ⟨hdir, hname.2⟩
          exact hsafe.stepOk rfl (by simp)
        · exact h.stepOk rfl (by simp)
  | getdata =>
      cases hn
      have hsafe : Safe parent es (s.setPc a (.lockParent .getdata)) :=
        safe_of_step rfl rfl h.cache (fun b _ => h.thread b) trivial
      exact hsafe.quiet

/-! ## Every run -/

/-- What holds at every point of a run that started with the entries `before`. -/
structure DirInv (parent : Inum) (before : List Entry) (τ : List CallEvent) (s : DirState) :
    Prop where
  safe : Safe parent (before ++ entries (stored τ)) s
  balanced : Balanced τ s.pc
  slash : ∀ e ∈ before ++ entries (stored τ), slash ∉ e.name
  nodup : (names (entries (stored τ))).Nodup
  fresh : ∀ e ∈ entries (stored τ), e.name ∉ names before
  reads : System.Each (ReadsCreated before) τ

/-- A text that is read. -/
theorem DirInv.readsCreated (h : DirInv parent before τ s) {buf : Bytes}
    (hbuf : buf = content (before ++ entries (stored τ))) :
    ReadsCreated before τ (.read a buf) := by
  intro hall
  refine ⟨entries (stored τ), (h.balanced.perm hall).map _, ?_, ?_⟩
  · intro e he
    have hmem : e.name ∈ names (entries (stored τ)) := List.mem_map_of_mem he
    have hbefore := List.count_eq_zero.mpr (h.fresh e he)
    have hnew := List.count_eq_one_of_mem h.nodup hmem
    simp only [names, List.map_append, List.count_append] at hbefore hnew ⊢
    omega
  · intro fs hfs
    rw [hbuf]
    constructor
    · exact content_inj hfs h.slash
    · rintro rfl
      rfl

theorem DirInv.next {act : DirAction} (h : DirInv parent before τ s)
    (hn : s.next parent act = some (s', evs)) : DirInv parent before (τ ++ evs) s' := by
  have hstep : StepOk parent (before ++ entries (stored τ)) s' evs ∧ Balanced (τ ++ evs) s'.pc := by
    cases act with
    | call a c =>
        simp only [DirState.next] at hn
        split at hn
        · exact ⟨h.safe.call hn, h.balanced.call ‹_› hn⟩
        · cases hn
    | step a x =>
        refine ⟨h.safe.step h.slash hn, ?_⟩
        obtain ⟨q, t, ans, -, -, rfl, rfl⟩ := next_step_eq_some hn
        cases ans with
        | none => simpa [DirState.setPc, DirState.setWorld] using h.balanced
        | some r => exact h.balanced.step books_resume
  obtain ⟨hok, hbalanced⟩ := hstep
  constructor
  case safe => simpa using hok.safe
  case balanced => exact hbalanced
  case slash =>
    intro e he
    rw [stored_append, entries_append, ← List.append_assoc, List.mem_append] at he
    rcases he with he | he
    · exact h.slash e he
    · exact (hok.fresh e he).1
  case nodup =>
    rw [stored_append, entries_append, names, List.map_append, List.nodup_append]
    refine ⟨h.nodup, hok.nodup, ?_⟩
    intro n hn m hm hnm
    obtain ⟨e, he, rfl⟩ := List.mem_map.mp hm
    apply (hok.fresh e he).2
    rw [names, List.map_append, List.mem_append, ← hnm]
    exact .inr hn
  case fresh =>
    intro e he
    rw [stored_append, entries_append, List.mem_append] at he
    rcases he with he | he
    · exact h.fresh e he
    · intro hmem
      exact (hok.fresh e he).2 (by simp [names] at hmem ⊢; exact .inl hmem)
  case reads =>
    apply h.reads.append
    intro pre e post hevs
    cases e with
    | read b buf =>
        obtain ⟨hsingle, hbuf⟩ := hok.read b buf (by simp [hevs])
        obtain rfl : pre = [] := by
          rw [hsingle] at hevs
          cases pre <;> simp_all
        rw [List.append_nil]
        exact h.readsCreated hbuf
    | _ => trivial

theorem dirInv_run {x : ExtentId → Option Extent}
    (hx : (x parent).map Extent.name = some (content before))
    (hbefore : ∀ e ∈ before, slash ∉ e.name) (hrun : (dirSystem parent x).Run τ s) :
    DirInv parent before τ s := by
  refine hrun.invariant (I := DirInv parent before) ?_ ?_
  · rintro s ⟨hworld, hidle⟩
    have hcache := (cacheInv_run (.start (hworld parent))).1
    rw [latest, List.foldl_nil, hx] at hcache
    constructor
    case safe =>
      constructor
      case cache => simpa [stored, entries] using hcache
      case thread =>
        intro a
        rw [hidle a]
        trivial
    case balanced =>
      constructor
      case due => simp [stored, created, hidle, CallPc.due]
      case calls => simp [callers, returners, hidle, CallPc.creating]
    case slash => simpa [stored, entries] using hbefore
    case nodup => simp [stored, entries, names]
    case fresh => simp [stored, entries]
    case reads => exact System.each_nil
  · intro τ s act s' evs h hn
    exact h.next hn

/-- Any number of clients create files in one directory. At most one `create` for each name returns
OK, and whoever reads the directory under its lock when all calls have returned finds what was there
before and one entry for each `create` that has returned OK. -/
theorem creates_exact (before : List Entry) {x : ExtentId → Option Extent}
    (hx : (x parent).map Extent.name = some (content before))
    (hbefore : ∀ e ∈ before, slash ∉ e.name) (hrun : (dirSystem parent x).Run τ s) :
    (names (entries (created τ))).Nodup ∧ System.Each (ReadsCreated before) τ := by
  have h := dirInv_run hx hbefore hrun
  refine ⟨?_, h.reads⟩
  obtain ⟨l, hl, hsub⟩ := h.balanced.created_subperm
  have hnames : (names (entries l)).Nodup := h.nodup.sublist ((hsub.map _).map _)
  exact ((hl.map Prod.snd).map Entry.name).nodup_iff.mp hnames

/-- Two clients create the same name in an empty directory, and the second one reads it. -/
theorem creates_exact_same_name :
    let x : ExtentId → Option Extent := fun eid => if eid = 1 then some ⟨[], {}⟩ else none
    let buf : Bytes := [50, 49, 52, 55, 52, 56, 51, 54, 53, 51, 47, 97, 47]
    ∃ τ s pre, (dirSystem 1 x).Run τ s ∧ τ = pre ++ [.read ("c2", 0) buf] ∧
      AllReturned pre ∧ entries (created pre) = [⟨0x80000005, [97]⟩] ∧
      ReadsCreated [] pre (.read ("c2", 0) buf) := by
  intro x buf
  let c1 : Act := ("c1", 0)
  let c2 : Act := ("c2", 0)
  let lock : Act → DirAction := fun a => .step a (.lock a)
  let start : Act → Op → DirAction := fun a op => .step a (.start a op 9)
  let rpc : Act → List DirAction := fun a => [.step a (.serve a 9), .step a (.finish a 9)]
  let acts : List DirAction :=
    [.call c1 (.create [97] 5), .call c2 (.create [97] 6), lock c1, lock c1, lock c1,
      start c1 .get] ++ rpc c1 ++
    -- `c1` has found nothing and puts, and `c2` comes to ask for the lock
    [lock c1, lock c1, lock c1, start c1 (.put []), start c1 (.put buf),
      lock c2, lock c2, lock c2, lock c2, lock c1, lock c1, start c1 .flush] ++ rpc c1 ++
    [lock c1, lock c1, lock c1, lock c1, lock c2, lock c2, lock c2, start c2 .get] ++ rpc c2 ++
    [lock c2, .call c2 .getdata, lock c2, start c2 .get]
  obtain ⟨τ, s, hrun, hτ⟩ := System.exists_run (S := dirSystem 1 x)
    (s := ⟨fun eid => ⟨.initial, fun _ => none, x eid, fun _ => .idle⟩, fun _ => .idle⟩)
    (p := fun τ _ => τ = [.called c1, .called c2, .stored c1 ⟨0x80000005, [97]⟩,
      .returned c1 ⟨0x80000005, [97]⟩ .ok, .returned c2 ⟨0x80000006, [97]⟩ .exist, .read c2 buf])
    acts ⟨fun _ => rfl, fun _ => rfl⟩ (by decide +kernel)
  refine ⟨τ, s, τ.dropLast, hrun, by rw [hτ]; rfl, ?_, by rw [hτ]; rfl, ?_⟩
  · rw [hτ]
    exact List.Perm.refl [c1, c2]
  · refine (creates_exact [] rfl (by simp) hrun).2 _ _ [] ?_
    rw [hτ]
    rfl

end Yfs.Fs
