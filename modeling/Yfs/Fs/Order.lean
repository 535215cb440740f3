import Yfs.Fs.Clients

/-!
# The order of the locks

Only `create` holds a lock while it acquires another: it has locked the directory, and asks for the
lock of the number that it has drawn. There is no order of the inode numbers in this, and in
principle two threads could wait for each other, each in the directory whose number the other has
drawn. But a thread comes to its second lock only if its directory exists, and a number that all calls
draw at most once does not exist before its call has the lock. So whoever holds the second lock does
not wait for a third (`Ordered.holder_goes_on`).
-/

namespace Yfs.Fs

open Yfs.Lib Function
open Yfs.Lock (Act)
open Yfs.Extents (contents)
open Yfs.Rpc (Bytes)

abbrev FsTxn := Txn Inum (Option Bytes) YfsResult

/-! ## The programs -/

/-- A call writes nothing but contents, and to its number or to extents in `E` only. -/
def MayWrite (c : YfsCall) (E : Inum → Prop) (k : Inum) (v : Option Bytes) : Prop :=
  v ≠ none ∧ (c.number = some k ∨ E k)

theorem MayWrite.mono {c : YfsCall} {E E' : Inum → Prop} (hE : ∀ k, E k → E' k) (k : Inum)
    (v : Option Bytes) (h : MayWrite c E k v) : MayWrite c E' k v :=
  ⟨h.1, h.2.imp_right (hE k)⟩

/-- What a call does when it has locked `k` and read `v` there: it takes no more locks, or there is
something at `k` and it takes the lock of its number. -/
inductive Second (c : YfsCall) (k : Inum) (v : Option Bytes) : FsTxn → Prop where
  | flat {p : FsTxn} : p.Flat (MayWrite c fun j => j = k ∧ v ≠ none) → Second c k v p
  | claim {j : Inum} {q : FsTxn} : c.number = some j → v ≠ none →
      q.Flat (MayWrite c (· = k)) → Second c k v (.acquire j q)

/-- A call takes no locks, or it locks `k` and reads there before anything else. -/
inductive Shape (c : YfsCall) : FsTxn → Prop where
  | flat {p : FsTxn} : p.Flat (MayWrite c fun _ => False) → Shape c p
  | nested {k : Inum} {f : Option Bytes → FsTxn} : (∀ v, Second c k v (f v)) →
      Shape c (.acquire k (.read k f))

theorem shape_create (parent : Inum) (name : Bytes) (isfile : Bool) (rand : UInt32) :
    Shape (.create parent name isfile rand) (Program.create parent name isfile rand).txn := by
  unfold Program.create
  split
  · refine .nested fun v => ?_
    cases v with
    | none => exact .flat trivial
    | some b =>
        simp only [contents, ne_eq, not_true_eq_false, if_false]
        split
        · exact .flat trivial
        · exact .claim rfl (by simp) ⟨⟨by simp, .inl rfl⟩, ⟨by simp, .inr rfl⟩, trivial⟩
  · exact .flat trivial

theorem shape_lookup (parent : Inum) (name : Bytes) (junk : Inum) :
    Shape (.lookup parent name junk) (Program.lookup parent name junk).txn := by
  unfold Program.lookup
  split
  · split
    · exact .flat trivial
    · refine .nested fun v => .flat ?_
      cases v with
      | none => trivial
      | some b =>
          rw [show contents (some b) = (.ok, b) from rfl]
          dsimp only
          split
          · trivial
          · split
            · trivial
            · split <;> trivial
  · exact .flat trivial

theorem shape_modify {c : YfsCall} (ino : Inum) (f : Bytes → Except Fault Bytes) :
    Shape c (Program.modify ino f).txn := by
  refine .nested fun v => .flat ?_
  cases v with
  | none => trivial
  | some buf =>
      simp only [contents, ne_eq, not_true_eq_false, if_false]
      split
      · trivial
      · exact ⟨⟨by simp, .inr ⟨rfl, by simp⟩⟩, trivial⟩

theorem shape_program (c : YfsCall) : Shape c c.program.txn := by
  cases c with
  | create parent name isfile rand => exact shape_create parent name isfile rand
  | lookup parent name junk => exact shape_lookup parent name junk
  | read ino size off =>
      refine .nested fun v => .flat ?_
      cases v with
      | none => trivial
      | some buf =>
          simp only [contents, ne_eq, not_true_eq_false, if_false]
          split <;> trivial
  | write ino buf off =>
      show Shape _ (Program.write ino buf off).txn
      unfold Program.write
      split
      · exact .flat trivial
      · exact shape_modify ino _
  | setattr fileno stSize => exact shape_modify fileno _
  | getdata ino => exact .nested fun v => .flat trivial

/-! ## The calls under way -/

/-- Nothing exists under the number that the call has drawn. -/
def Unmade (m : Inum → Option Bytes) (c : YfsCall) : Prop := ∀ k, c.number = some k → m k = none

/-- Where a call is that has the locks `H`. -/
inductive Stage (m : Inum → Option Bytes) (H : Inum → Bool) (c : YfsCall) : FsTxn → Prop where
  | start {p : FsTxn} : Shape c p → (∀ k, H k = false) → Unmade m c → Stage m H c p
  | reading {k : Inum} {f : Option Bytes → FsTxn} : (∀ v, Second c k v (f v)) →
      (∀ j, H j = true → j = k) → Unmade m c → Stage m H c (.read k f)
  /-- The call waits for its second lock, and what it has locked exists. -/
  | claiming {j : Inum} {q : FsTxn} : c.number = some j → (∀ k, H k = true → m k ≠ none) →
      q.Flat (MayWrite c (m · ≠ none)) → Unmade m c → Stage m H c (.acquire j q)
  | flat {p : FsTxn} : p.Flat (MayWrite c (m · ≠ none)) → Stage m H c p

section

variable {m m' : Inum → Option Bytes} {H : Inum → Bool} {c d : YfsCall} {p : FsTxn}

/-- What exists stays. -/
theorem Stage.frame (h : Stage m H c p) (hm : ∀ k, m k ≠ none → m' k ≠ none)
    (hc : Unmade m c → Unmade m' c) : Stage m' H c p := by
  cases h with
  | start hp hH hnew => exact .start hp hH (hc hnew)
  | reading hf hH hnew => exact .reading hf hH (hc hnew)
  | claiming hj hH hq hnew =>
      exact .claiming hj (fun k hk => hm k (hH k hk)) (hq.mono (MayWrite.mono hm)) (hc hnew)
  | flat hp => exact .flat (hp.mono (MayWrite.mono hm))

end

/-- The calls under way, when the calls have drawn the numbers of `τ`. -/
structure Ordered (τ : List FsEvent) (l : FsLocked) : Prop where
  stage : ∀ t c p, l.thread t = some (c, p) → Stage l.store (l.held t) c p
  called : ∀ t c p, l.thread t = some (c, p) → .called t c ∈ τ
  distinct : ∀ t u c d p q n, l.thread t = some (c, p) → l.thread u = some (d, q) →
    c.number = some n → d.number = some n → t = u
  used : ∀ i, l.store i ≠ none → i = 1 ∨ i ∈ numbers τ

section

variable {τ : List FsEvent} {l l' : FsLocked} {t u : Act} {c d : YfsCall} {p q : FsTxn}
  {i j k : Inum} {es : List FsEvent} {m₀ : Inum → Option Bytes}

/-- A thread that holds a lock and waits for another one waits for nobody who waits. -/
theorem Ordered.holder_goes_on (h : Ordered τ l) (ht : l.thread t = some (c, .acquire j p))
    (hk : l.holder k = some t) (hj : l.holder j = some u) : l.thread u ≠ some (d, .acquire i q) := by
  have held : ∀ {t k}, l.holder k = some t → l.held t k = true := fun hk => by
    simp [Locked.held, hk]
  -- a thread with a lock that waits for another has come to the second lock
  have hclaims : ∀ {t c j p k}, l.thread t = some (c, .acquire j p) → l.holder k = some t →
      l.store k ≠ none ∧ l.store j = none := by
    intro t c j p k ht hk
    cases h.stage t c _ ht with
    | start _ hH _ =>
        have := hH k
        rw [held hk] at this
        cases this
    | claiming hj hH _ hnew => exact ⟨hH k (held hk), hnew j hj⟩
    | flat hp => exact hp.elim
  intro hu
  exact (hclaims hu hj).1 (hclaims ht hk).2

theorem Ordered.call (h : Ordered τ l) (hfree : ∀ k, l.held t k = false)
    (hnodup : (1 :: numbers (τ ++ [.called t c])).Nodup) :
    Ordered (τ ++ [.called t c]) (l.goOn t c c.program.txn) := by
  have hnew : ∀ n, c.number = some n → n ∉ 1 :: numbers τ := fun n hn => number_new hnodup hn
  have hthread : ∀ u d q, (l.goOn t c c.program.txn).thread u = some (d, q) →
      u = t ∧ d = c ∧ q = c.program.txn ∨ u ≠ t ∧ l.thread u = some (d, q) := by
    intro u d q hu
    replace hu : update l.thread t (some (c, c.program.txn)) u = some (d, q) := hu
    by_cases hut : u = t
    · subst hut
      rw [update_self] at hu
      cases hu
      exact .inl ⟨rfl, rfl, rfl⟩
    · rw [update_of_ne hut] at hu
      exact .inr ⟨hut, hu⟩
  constructor
  case stage =>
    intro u d q hu
    rcases hthread u d q hu with ⟨rfl, rfl, rfl⟩ | ⟨-, hu⟩
    · refine .start (shape_program d) hfree fun n hn => ?_
      by_contra hne
      refine hnew n hn ?_
      rcases h.used n hne with rfl | hmem
      · exact List.mem_cons_self
      · exact List.mem_cons_of_mem _ hmem
    · exact h.stage u d q hu
  case called =>
    intro u d q hu
    rcases hthread u d q hu with ⟨rfl, rfl, -⟩ | ⟨-, hu⟩
    · simp
    · exact List.mem_append_left _ (h.called u d q hu)
  case distinct =>
    intro v w d e p q n hv hw hd he
    have hold : ∀ {u d q}, l.thread u = some (d, q) → d.number = some n → n ∈ 1 :: numbers τ :=
      fun hu hn => List.mem_cons_of_mem _ (mem_numbers (h.called _ _ _ hu) hn)
    rcases hthread v d p hv with ⟨rfl, rfl, -⟩ | ⟨-, hv'⟩ <;>
      rcases hthread w e q hw with ⟨rfl, rfl, -⟩ | ⟨-, hw'⟩
    · rfl
    · exact absurd (hold hw' he) (hnew n hd)
    · exact absurd (hold hv' hd) (hnew n he)
    · exact h.distinct v w d e p q n hv' hw' hd he
  case used =>
    intro i hi
    rw [numbers_called]
    exact (h.used i hi).imp_right (List.mem_append_left _)

/-- Thread `t` goes on, and what exists stays. -/
theorem Ordered.of_move (h : Ordered τ l) (ht : l.thread t = some (c, p))
    (hthread : l'.thread = update l.thread t (some (c, q)))
    (hheld : ∀ u, u ≠ t → l'.held u = l.held u) (hm : ∀ k, l.store k ≠ none → l'.store k ≠ none)
    (hmade : ∀ k, l'.store k ≠ none → l.store k = none → c.number = some k)
    (hq : Stage l'.store (l'.held t) c q) : Ordered τ l' := by
  have hold : ∀ u d r, l'.thread u = some (d, r) →
      ∃ r', l.thread u = some (d, r') ∧ (u = t → d = c ∧ r = q) ∧ (u ≠ t → r' = r) := by
    intro u d r hu
    rw [hthread] at hu
    by_cases hut : u = t
    · subst hut
      rw [update_self] at hu
      cases hu
      exact ⟨p, ht, fun _ => ⟨rfl, rfl⟩, fun hne => absurd rfl hne⟩
    · rw [update_of_ne hut] at hu
      exact ⟨r, hu, fun heq => absurd heq hut, fun _ => rfl⟩
  constructor
  case stage =>
    intro u d r hu
    obtain ⟨r', hu', hself, hother⟩ := hold u d r hu
    by_cases hut : u = t
    · obtain ⟨rfl, rfl⟩ := hself hut
      rw [hut]
      exact hq
    · obtain rfl := hother hut
      rw [hheld u hut]
      refine (h.stage u d r' hu').frame hm fun hnew k hk => ?_
      -- nobody but `t` makes the number of `t`
      by_contra hne
      exact hut (h.distinct u t d c r' p k hu' ht hk (hmade k hne (hnew k hk)))
  case called =>
    intro u d r hu
    obtain ⟨r', hu', -⟩ := hold u d r hu
    exact h.called u d r' hu'
  case distinct =>
    intro v w d e r r' n hv hw
    obtain ⟨_, hv', -⟩ := hold v d r hv
    obtain ⟨_, hw', -⟩ := hold w e r' hw
    exact h.distinct v w d e _ _ n hv' hw'
  case used =>
    intro i hi
    by_cases hno : l.store i = none
    · exact .inr (mem_numbers (h.called t c p ht) (hmade i hi hno))
    · exact h.used i hno

theorem Ordered.goOn (h : Ordered τ l) (ht : l.thread t = some (c, p))
    (hq : Stage l.store (l.held t) c q) : Ordered τ (l.goOn t c q) :=
  h.of_move ht rfl (fun _ _ => rfl) (fun _ hk => hk) (fun _ hk hno => absurd hno hk) hq

theorem Ordered.ret (h : Ordered τ l) {r : YfsResult} :
    Ordered (τ ++ [.returned t c r]) { l with thread := update l.thread t none } := by
  have hthread : ∀ u d q, update l.thread t none u = some (d, q) → l.thread u = some (d, q) := by
    intro u d q hu
    by_cases hut : u = t
    · rw [hut, update_self] at hu
      cases hu
    · rwa [update_of_ne hut] at hu
  constructor
  · exact fun u d q hu => h.stage u d q (hthread u d q hu)
  · exact fun u d q hu => List.mem_append_left _ (h.called u d q (hthread u d q hu))
  · exact fun u v d e p q n hu hv => h.distinct u v d e p q n (hthread u d p hu) (hthread v e q hv)
  · rw [numbers_returned]
    exact h.used

theorem Ordered.acquire (h : Ordered τ l) (ht : l.thread t = some (c, .acquire k p))
    (hk : l.holder k = none) :
    Ordered τ ({ l with holder := update l.holder k (some t) }.goOn t c p) := by
  obtain ⟨hheld, hother⟩ := held_acquire t hk
  refine h.of_move ht rfl hother (fun _ hj => hj) (fun _ hj hno => absurd hno hj) ?_
  show Stage l.store (Locked.held { l with holder := update l.holder k (some t) } t) c p
  rw [hheld]
  generalize hq : Txn.acquire k p = q at ht
  cases h.stage t c q ht with
  | start hshape hH hnew =>
      subst hq
      cases hshape with
      | flat hp => exact hp.elim
      | nested hf =>
          refine .reading hf (fun j hj => ?_) hnew
          by_contra hjk
          rw [update_of_ne hjk, hH j] at hj
          cases hj
  | reading => cases hq
  | claiming hj hH hp hnew =>
      cases hq
      exact .flat hp
  | flat hp =>
      subst hq
      exact hp.elim

/-- A call that makes no more of its number goes on. -/
theorem Stage.flat_of {m : Inum → Option Bytes} {H : Inum → Bool} (h : Stage m H c p)
    (hacquire : ∀ k q, p ≠ .acquire k q) (hread : ∀ k f, p ≠ .read k f) :
    p.Flat (MayWrite c (m · ≠ none)) := by
  cases h with
  | start hshape _ _ =>
      cases hshape with
      | flat hp => exact hp.mono (MayWrite.mono fun _ => False.elim)
      | nested hf => exact absurd rfl (hacquire _ _)
  | reading => exact absurd rfl (hread _ _)
  | claiming => exact absurd rfl (hacquire _ _)
  | flat hp => exact hp

theorem Ordered.read (h : Ordered τ l) {f : Option Bytes → FsTxn}
    (ht : l.thread t = some (c, .read k f)) : Ordered τ (l.goOn t c (f (l.store k))) := by
  apply h.goOn ht
  generalize hq : Txn.read k f = q at ht
  cases h.stage t c q ht with
  | start hshape hH hnew =>
      subst hq
      cases hshape with
      | flat hp => exact .flat ((hp _).mono (MayWrite.mono fun _ => False.elim))
  | @reading k' f' hf hH hnew =>
      cases hq
      -- what it has read is still there
      have hsecond := hf (l.store k)
      generalize hv : l.store k = v at hsecond ⊢
      generalize f v = p at hsecond ⊢
      cases hsecond with
      | flat hp =>
          refine .flat (hp.mono (MayWrite.mono fun j hj => ?_))
          rw [hj.1, hv]
          exact hj.2
      | claim hj hne hp =>
          refine .claiming hj (fun j hHj => ?_) (hp.mono (MayWrite.mono fun j hj => ?_)) hnew
          · rw [hH j hHj, hv]
            exact hne
          · rw [hj, hv]
            exact hne
  | claiming => cases hq
  | flat hp =>
      subst hq
      exact .flat (hp _)

theorem Ordered.write (h : Ordered τ l) {v : Option Bytes}
    (ht : l.thread t = some (c, .write k v p)) :
    Ordered τ ({ l with store := update l.store k v }.goOn t c p) := by
  obtain ⟨⟨hv, hk⟩, hp⟩ := (h.stage t c _ ht).flat_of (by simp) (by simp)
  have hm : ∀ j, l.store j ≠ none → update l.store k v j ≠ none := by
    intro j hj
    by_cases hjk : j = k
    · rw [hjk, update_self]
      exact hv
    · rw [update_of_ne hjk]
      exact hj
  refine h.of_move ht rfl (fun _ _ => rfl) hm (fun j hj hno => ?_) (.flat (hp.mono (MayWrite.mono hm)))
  by_cases hjk : j = k
  · rw [hjk]
    exact hk.resolve_right fun hne => hne (hjk ▸ hno)
  · exact absurd hno ((update_of_ne hjk v l.store) ▸ hj)

theorem Ordered.release (h : Ordered τ l) (ht : l.thread t = some (c, .release k p))
    (hk : l.holder k = some t) :
    Ordered τ ({ l with holder := update l.holder k none }.goOn t c p) := by
  have hp := (h.stage t c _ ht).flat_of (by simp) (by simp)
  exact h.of_move ht rfl (held_release hk).2 (fun _ hj => hj) (fun _ hj hno => absurd hno hj) (.flat hp)

theorem Ordered.next (h : Ordered τ l) {y : Atomic Act Inum (Option Bytes) YfsCall YfsResult}
    (hsim : Sim (fun c => c.program.txn) l y) {act : TxnAction Act YfsCall}
    (hnodup : (1 :: numbers (τ ++ es)).Nodup)
    (hn : (lockedSystem (fun c : YfsCall => c.program.txn) m₀).next l act = some (l', es)) :
    Ordered (τ ++ es) l' := by
  cases act with
  | call t c =>
      simp only [lockedSystem] at hn
      split at hn
      · rename_i ht
        cases hn
        have hfollows := hsim.thread t
        rw [ht] at hfollows
        generalize y.thread t = z at hfollows
        cases hfollows with
        | idle hfree => exact h.call hfree hnodup
      · cases hn
  | step t =>
      simp only [lockedSystem] at hn
      split at hn
      · cases hn
      · rename_i c p ht
        cases p with
        | ret r =>
            cases hn
            exact h.ret
        | fail => cases hn
        | acquire k p =>
            simp only [Locked.request, Option.ite_none_right_eq_some, Option.some.injEq,
              Prod.mk.injEq] at hn
            obtain ⟨hk, rfl, rfl⟩ := hn
            simpa using h.acquire ht hk
        | release k p =>
            simp only [Locked.request, Option.ite_none_right_eq_some, Option.some.injEq,
              Prod.mk.injEq] at hn
            obtain ⟨hk, rfl, rfl⟩ := hn
            simpa using h.release ht hk
        | read k f =>
            cases hn
            simpa using h.read ht
        | write k v p =>
            cases hn
            simpa using h.write ht

/-- On a new file system, as long as no number is drawn twice. -/
theorem ordered_run (hm₀ : ∀ i, m₀ i ≠ none → i = 1)
    (h : (lockedSystem (fun c : YfsCall => c.program.txn) m₀).Run τ l)
    (hnodup : (1 :: numbers τ).Nodup) : Ordered τ l := by
  induction h with
  | start hs =>
      cases hs
      exact ⟨by simp, by simp, by simp, fun i hi => .inl (hm₀ i hi)⟩
  | @step τ l act l' es hrun hn ih =>
      have hprefix : (1 :: numbers τ).Nodup := by
        rw [numbers, List.filterMap_append, ← List.cons_append] at hnodup
        exact (List.nodup_append.mp hnodup).1
      obtain ⟨y, -, hsim⟩ := exists_sim growing_program run_program hrun
      exact (ih hprefix).next hsim hnodup hn

end

end Yfs.Fs
