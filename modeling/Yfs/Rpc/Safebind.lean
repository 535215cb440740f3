import Yfs.Rpc.Handle

/-!
# How long handles last, and what `safebind` returns

`History` says what the state of the handles tells about the past: which handle was given which
`hinfo`, what their `safebind`s have returned, and why a `hinfo` is marked as deleted. A step keeps
it because handles keep what they point to, and what is deleted stays so (`Grows`).

Nothing that was freed is ever used (`handle_lifetime`). But a handle does not protect its
connection from `delete_handle`: the `safebind` of a handle that had an `rpcc` returns NULL
afterwards, though the `rpcc` is still there (`safebind_stable_iff`).
-/

namespace Yfs.Rpc

open Yfs.Lib

/-! ## Handles and the past -/

/-- Where nothing is to be bound any more. -/
def Hinfo.Shut {N : Type} (g : Hinfo N) : Prop := g.del = true ∧ g.clMutex = none

/-- What was deleted stays so, and nothing is bound there again. -/
def Hinfo.Stays {N : Type} (g g' : Hinfo N) : Prop :=
  (g.del = true → g'.del = true) ∧ (g.Shut → g'.Shut)

namespace Handles

section
variable {N : Type} {s s' s'' : Handles N} {x i c : Nat} {o : HandleObj} {g : Hinfo N}
  {τ es : List HandleEvent}

/-- Handles keep what they point to and `hinfo`s stay deleted. -/
structure Grows (s s' : Handles N) : Prop where
  objs : s.objs.length ≤ s'.objs.length
  nhinfo : s.nhinfo ≤ s'.nhinfo
  obj : ∀ x o', s'.obj x = some o' → x < s.objs.length →
    ∃ o, s.obj x = some o ∧ o.h = o'.h ∧ o.got ⊆ o'.got
  hinfo : ∀ i g', s'.hinfos i = some g' → i < s.nhinfo → ∃ g, s.hinfos i = some g ∧ g.Stays g'

theorem Grows.refl (s : Handles N) : Grows s s :=
  ⟨le_rfl, le_rfl, fun _ o hx _ => ⟨o, hx, rfl, List.Subset.refl _⟩,
    fun _ g hi _ => ⟨g, hi, id, id⟩⟩

theorem Grows.trans (h : Grows s s') (h' : Grows s' s'') : Grows s s'' where
  objs := h.objs.trans h'.objs
  nhinfo := h.nhinfo.trans h'.nhinfo
  obj x o'' hx hlt := by
    obtain ⟨o', hx', ho', hgot'⟩ := h'.obj x o'' hx (hlt.trans_le h.objs)
    obtain ⟨o, hx, ho, hgot⟩ := h.obj x o' hx' hlt
    exact ⟨o, hx, ho.trans ho', fun _ hc => hgot' (hgot hc)⟩
  hinfo i g'' hi hlt := by
    obtain ⟨g', hi', hdel'⟩ := h'.hinfo i g'' hi (hlt.trans_le h.nhinfo)
    obtain ⟨g, hi, hdel⟩ := h.hinfo i g' hi' hlt
    exact ⟨g, hi, hdel'.1 ∘ hdel.1, hdel'.2 ∘ hdel.2⟩

theorem grows_addObj (s : Handles N) (p : Option Nat) : Grows s (s.addObj p) := by
  refine { Grows.refl s with objs := ?_, obj := ?_ }
  · simp [addObj]
  · intro x o hx hlt
    rw [obj_addObj, if_neg (Nat.ne_of_lt hlt)] at hx
    exact ⟨o, hx, rfl, List.Subset.refl _⟩

theorem grows_setObj (hx : s.obj x = some o) {q : Option HandleObj}
    (hq : ∀ o', q = some o' → o.h = o'.h ∧ o.got ⊆ o'.got) : Grows s (s.setObj x q) := by
  refine { Grows.refl s with objs := ?_, obj := ?_ }
  · simp [setObj]
  · intro y o' hy _
    rw [obj_setObj hx] at hy
    split at hy
    · subst y
      exact ⟨o, hx, hq o' hy⟩
    · exact ⟨o', hy, rfl, List.Subset.refl _⟩

theorem grows_setHinfo (hi : s.hinfos i = some g) {q : Option (Hinfo N)}
    (hq : ∀ g', q = some g' → g.Stays g') : Grows s (s.setHinfo i q) := by
  refine { Grows.refl s with hinfo := ?_ }
  intro j g' hj _
  by_cases hji : j = i
  · subst hji
    rw [hinfos_setHinfo] at hj
    exact ⟨g, hi, hq g' hj⟩
  · rw [hinfos_setHinfo_of_ne s hji] at hj
    exact ⟨g', hj, id, id⟩

/-- What the state says about the events so far. -/
structure History (τ : List HandleEvent) (s : Handles N) : Prop where
  old : ∀ x, (∀ i, .obtained x i ∈ τ → x < s.objs.length) ∧ ∀ r, .bound x r ∈ τ → x < s.objs.length
  named : ∀ x o i, s.obj x = some o → (o.h = some i ↔ .obtained x i ∈ τ)
  past : ∀ i, .failed i ∈ τ ∨ .deleted i ∈ τ → i < s.nhinfo ∧
    ∀ g, s.hinfos i = some g → g.del = true
  /-- Where `bind` has not failed, there was a `delete_handle`. -/
  why : ∀ i g, s.hinfos i = some g → g.del = true → g.cl ≠ none ∨ g.clMutex ≠ none → .deleted i ∈ τ
  got : ∀ x o c, s.obj x = some o → .bound x (some c) ∈ τ → c ∈ o.got
  lost : ∀ x o i g, s.obj x = some o → o.h = some i → s.hinfos i = some g →
    .bound x none ∈ τ → g.Shut

/-- What a `safebind` of `x` leaves when it returns `r`. -/
def Returned (s : Handles N) (x : Nat) (r : Option Nat) : Prop :=
  ∃ o, s.obj x = some o ∧ (∀ c, r = some c → c ∈ o.got) ∧
    (r = none → ∀ i g, o.h = some i → s.hinfos i = some g → g.Shut)

/-- A step after which the new events fit. -/
theorem History.grow (h : History τ s) (hok : Ok s) (hg : Grows s s')
    (hobtained : ∀ x i, .obtained x i ∈ es → s.objs.length ≤ x ∧ x < s'.objs.length)
    (hnamed : ∀ x o i, s'.obj x = some o → s.objs.length ≤ x → (o.h = some i ↔ .obtained x i ∈ es))
    (hpast : ∀ i, .failed i ∈ es ∨ .deleted i ∈ es →
      i < s'.nhinfo ∧ ∀ g, s'.hinfos i = some g → g.del = true)
    (hwhy : ∀ i g', s'.hinfos i = some g' → g'.del = true → g'.cl ≠ none ∨ g'.clMutex ≠ none →
      .deleted i ∈ es ∨ ∃ g, s.hinfos i = some g ∧ g.del = true ∧ (g.cl ≠ none ∨ g.clMutex ≠ none))
    (hbound : ∀ x r, .bound x r ∈ es → s'.Returned x r) :
    History (τ ++ es) s' where
  old x := by
    simp only [List.mem_append]
    refine ⟨fun i hi => ?_, fun r hr => ?_⟩
    · exact hi.elim (fun hi => ((h.old x).1 i hi).trans_le hg.objs) fun hi => (hobtained x i hi).2
    · rcases hr with hr | hr
      · exact ((h.old x).2 r hr).trans_le hg.objs
      · obtain ⟨o, hx, -⟩ := hbound x r hr
        exact lt_of_obj hx
  named x o' i hx := by
    rw [List.mem_append]
    by_cases hlt : x < s.objs.length
    · obtain ⟨o, hx', ho, -⟩ := hg.obj x o' hx hlt
      rw [← ho, h.named x o i hx']
      exact ⟨.inl, fun hi => hi.resolve_right fun hi =>
        absurd (hobtained x i hi).1 (Nat.not_le.mpr hlt)⟩
    · rw [hnamed x o' i hx (Nat.not_lt.mp hlt)]
      exact ⟨.inr, fun hi => hi.resolve_left fun hi => hlt ((h.old x).1 i hi)⟩
  past i hi := by
    rw [List.mem_append, List.mem_append, or_or_or_comm] at hi
    rcases hi with hi | hi
    · obtain ⟨hlt, hdel⟩ := h.past i hi
      refine ⟨hlt.trans_le hg.nhinfo, fun g' hi' => ?_⟩
      obtain ⟨g, hi, hdel'⟩ := hg.hinfo i g' hi' hlt
      exact hdel'.1 (hdel g hi)
    · exact hpast i hi
  why i g' hi hdel hcl := by
    rw [List.mem_append]
    rcases hwhy i g' hi hdel hcl with hes | ⟨g, hi, hdel, hcl⟩
    · exact .inr hes
    · exact .inl (h.why i g hi hdel hcl)
  got x o' c hx hc := by
    rcases List.mem_append.mp hc with hc | hc
    · obtain ⟨o, hx', -, hgot⟩ := hg.obj x o' hx ((h.old x).2 _ hc)
      exact hgot (h.got x o c hx' hc)
    · obtain ⟨o, hx', hgot, -⟩ := hbound x _ hc
      rw [hx] at hx'
      cases hx'
      exact hgot c rfl
  lost x o' i g' hx ho hi hn := by
    rcases List.mem_append.mp hn with hn | hn
    · obtain ⟨o, hx', ho', -⟩ := hg.obj x o' hx ((h.old x).2 _ hn)
      rw [ho] at ho'
      -- the handle pointed there before
      obtain ⟨g₀, hi₀, -⟩ := hok.points x o i hx' ho'
      obtain ⟨g, hi', hdel⟩ := hg.hinfo i g' hi (hok.hinfo i g₀ hi₀).old
      exact hdel.2 (h.lost x o i g hx' ho' hi' hn)
    · obtain ⟨o, hx', -, hdel⟩ := hbound x _ hn
      rw [hx] at hx'
      cases hx'
      exact hdel rfl i g' ho hi

/-- A step that makes no handle. -/
theorem History.keep (h : History τ s) (hok : Ok s) (hg : Grows s s')
    (hlen : s'.objs.length = s.objs.length) (hes : ∀ x i, .obtained x i ∉ es)
    (hpast : ∀ i, .failed i ∈ es ∨ .deleted i ∈ es →
      i < s.nhinfo ∧ ∀ g, s'.hinfos i = some g → g.del = true)
    (hwhy : ∀ i g', s'.hinfos i = some g' → g'.del = true → g'.cl ≠ none ∨ g'.clMutex ≠ none →
      .deleted i ∈ es ∨ ∃ g, s.hinfos i = some g ∧ g.del = true ∧ (g.cl ≠ none ∨ g.clMutex ≠ none))
    (hbound : ∀ x r, .bound x r ∈ es → s'.Returned x r) :
    History (τ ++ es) s' := by
  refine h.grow hok hg (fun x i hi => absurd hi (hes x i)) ?_ ?_ hwhy hbound
  · intro x o i hx hge
    exact absurd (lt_of_obj hx) (by omega)
  · exact fun i hi => ⟨(hpast i hi).1.trans_le hg.nhinfo, (hpast i hi).2⟩

theorem why_same : ∀ i g, s.hinfos i = some g → g.del = true → g.cl ≠ none ∨ g.clMutex ≠ none →
    .deleted i ∈ es ∨ ∃ g, s.hinfos i = some g ∧ g.del = true ∧ (g.cl ≠ none ∨ g.clMutex ≠ none) :=
  fun _ g hi hdel hcl => .inr ⟨g, hi, hdel, hcl⟩

theorem why_update (hi : s.hinfos i = some g) {q : Option (Hinfo N)}
    (hs : s'.hinfos = Function.update s.hinfos i q)
    (hq : ∀ g', q = some g' → g'.del = true → g'.cl ≠ none ∨ g'.clMutex ≠ none →
      .deleted i ∈ es ∨ g.del = true ∧ (g.cl ≠ none ∨ g.clMutex ≠ none)) :
    ∀ j g', s'.hinfos j = some g' → g'.del = true → g'.cl ≠ none ∨ g'.clMutex ≠ none →
      .deleted j ∈ es ∨ ∃ g, s.hinfos j = some g ∧ g.del = true ∧
        (g.cl ≠ none ∨ g.clMutex ≠ none) := by
  intro j g' hj hdel hcl
  rw [hs] at hj
  by_cases hji : j = i
  · subst hji
    rw [Function.update_self] at hj
    exact (hq g' hj hdel hcl).imp_right fun hg => ⟨g, hi, hg⟩
  · rw [Function.update_of_ne hji] at hj
    exact .inr ⟨g', hj, hdel, hcl⟩

theorem grows_drop (hx : s.obj x = some o) (hi : s.hinfos i = some g) : Grows s (s.drop x i g) := by
  have hi' : (s.setObj x none).hinfos i = some g := hi
  refine (grows_setObj hx (by simp)).trans (grows_setHinfo hi' ?_)
  rintro _ ⟨⟩
  exact ⟨id, id⟩

/-- The one new handle, with its event. -/
theorem named_addObj (p : Option Nat) (x : Nat) (o : HandleObj) (hx : (s.addObj p).obj x = some o)
    (hge : s.objs.length ≤ x) : x = s.objs.length ∧ o.h = p := by
  rw [obj_addObj] at hx
  split at hx
  · cases hx
    exact ⟨‹_›, rfl⟩
  · exact absurd (lt_of_obj hx) (Nat.not_lt.mpr hge)

/-! ## Each step -/

theorem History.share (h : History τ s) (hok : Ok s) (hi : s.hinfos i = some g)
    (hdel : g.del = false) :
    History (τ ++ [.obtained s.objs.length i])
      ((s.addObj (some i)).setHinfo i (some { g with refcnt := g.refcnt + 1 })) := by
  have hi' : (s.addObj (some i)).hinfos i = some g := hi
  refine h.grow hok ((grows_addObj s _).trans (grows_setHinfo hi' ?_)) ?_ ?_ (by simp)
    (why_update hi rfl ?_) (by simp)
  · rintro _ ⟨⟩
    exact ⟨id, id⟩
  · simp [addObj, setHinfo]
  · intro x o j hx hge
    obtain ⟨rfl, ho⟩ := named_addObj (some i) x o hx hge
    simp [ho, eq_comm]
  · rintro _ ⟨⟩ hdel'
    exact absurd (hdel.symm.trans hdel') (by simp)

theorem History.refuse (h : History τ s) (hok : Ok s) : History (τ ++ []) (s.addObj none) := by
  refine h.grow hok (grows_addObj s none) (by simp) ?_ (by simp) why_same (by simp)
  intro x o i hx hge
  simp [(named_addObj none x o hx hge).2]

/-- A `safebind` that returns NULL and changes nothing. -/
theorem History.isNull (h : History τ s) (hok : Ok s) (hx : s.obj x = some o)
    (hshut : ∀ i g, o.h = some i → s.hinfos i = some g → g.Shut) :
    History (τ ++ [.bound x none]) s := by
  refine h.keep hok (Grows.refl s) rfl (by simp) (by simp) why_same ?_
  intro y r hr
  cases List.mem_singleton.mp hr
  exact ⟨o, hx, by simp, fun _ => hshut⟩

theorem History.isBound (h : History τ s) (hok : Ok s) (hx : s.obj x = some o) :
    History (τ ++ [.bound x (some c)]) (s.setObj x (some { o with got := c :: o.got })) := by
  refine h.keep hok (grows_setObj hx ?_) (by simp [setObj]) (by simp) (by simp) why_same ?_
  · rintro _ ⟨⟩
    exact ⟨rfl, List.subset_cons_self _ _⟩
  · intro y r hr
    cases List.mem_singleton.mp hr
    exact ⟨_, (obj_setObj hx _ _).trans (if_pos rfl), by simp, by simp⟩

theorem History.bind (h : History τ s) (hok : Ok s) (hi : s.hinfos i = some g)
    (hdel : g.del = false)
    (m : N) : History (τ ++ []) ({ s.setRpcc s.nrpcc (some m) with nrpcc := s.nrpcc + 1 }.setHinfo i
      (some { g with clMutex := some (x, s.nrpcc) })) := by
  have hgrow : Grows s (s.setHinfo i (some { g with clMutex := some (x, s.nrpcc) })) := by
    refine grows_setHinfo hi ?_
    rintro _ ⟨⟩
    exact ⟨id, fun hshut => absurd (hdel.symm.trans hshut.1) (by simp)⟩
  refine h.keep hok ⟨hgrow.objs, hgrow.nhinfo, hgrow.obj, hgrow.hinfo⟩ rfl (by simp) (by simp)
    (why_update hi rfl ?_) (by simp)
  rintro _ ⟨⟩ hdel'
  exact absurd (hdel.symm.trans hdel') (by simp)

theorem History.bound (h : History τ s) (hok : Ok s) (hx : s.obj x = some o)
    (hi : s.hinfos i = some g)
    (hmutex : g.clMutex = some (x, c)) :
    History (τ ++ [.bound x (some c)]) ((s.setObj x (some { o with got := c :: o.got })).setHinfo i
      (some { g with cl := some c, clMutex := none })) := by
  have hi' : (s.setObj x (some { o with got := c :: o.got })).hinfos i = some g := hi
  refine h.keep hok ((grows_setObj hx ?_).trans (grows_setHinfo hi' ?_))
    (by simp [setObj, setHinfo])
    (by simp) (by simp) (why_update hi rfl ?_) ?_
  · rintro _ ⟨⟩
    exact ⟨rfl, List.subset_cons_self _ _⟩
  · rintro _ ⟨⟩
    exact ⟨id, fun hshut => ⟨hshut.1, rfl⟩⟩
  · rintro _ ⟨⟩ hdel -
    exact .inr ⟨hdel, .inr (by simp [hmutex])⟩
  · intro y r hr
    cases List.mem_singleton.mp hr
    exact ⟨_, (obj_setObj hx _ _).trans (if_pos rfl), by simp, by simp⟩

theorem History.failed (h : History τ s) (hok : Ok s) (hx : s.obj x = some o) (ho : o.h = some i)
    (hi : s.hinfos i = some g) (hmutex : g.clMutex = some (x, c)) :
    History (τ ++ [.failed i, .bound x g.cl])
      ((s.setRpcc c none).setHinfo i (some { g with del := true, clMutex := none })) := by
  have hg := hok.hinfo i g hi
  have hcl := (hg.binding x c hmutex).1
  have hgrow : Grows s (s.setHinfo i (some { g with del := true, clMutex := none })) := by
    refine grows_setHinfo hi ?_
    rintro _ ⟨⟩
    exact ⟨fun _ => rfl, fun _ => ⟨rfl, rfl⟩⟩
  refine h.keep hok ⟨hgrow.objs, hgrow.nhinfo, hgrow.obj, hgrow.hinfo⟩ rfl (by simp) ?_
    (why_update hi rfl ?_) ?_
  · intro j hj
    obtain rfl : j = i := by simpa using hj
    exact ⟨hg.old, by simp +contextual⟩
  · rintro _ ⟨⟩ - hne
    simp [hcl] at hne
  · intro y r hr
    obtain ⟨rfl, rfl⟩ : y = x ∧ r = g.cl := by simpa using hr
    refine ⟨o, hx, by simp [hcl], fun _ j g' ho' hi' => ?_⟩
    rw [ho] at ho'
    cases ho'
    rw [hinfos_setHinfo] at hi'
    cases hi'
    exact ⟨rfl, rfl⟩

theorem History.dropNull (h : History τ s) (hok : Ok s) (hx : s.obj x = some o) :
    History (τ ++ []) (s.setObj x none) :=
  h.keep hok (grows_setObj hx (by simp)) (by simp [setObj]) (by simp) (by simp) why_same (by simp)

theorem History.drop (h : History τ s) (hok : Ok s) (hx : s.obj x = some o)
    (hi : s.hinfos i = some g) :
    History (τ ++ []) (s.drop x i g) := by
  refine h.keep hok (grows_drop hx hi) (by simp [Handles.drop, setObj, setHinfo])
    (by simp) (by simp)
    (why_update hi rfl ?_) (by simp)
  rintro _ ⟨⟩ hdel hcl
  exact .inr ⟨hdel, hcl⟩

theorem History.mark (h : History τ s) (hok : Ok s) (hi : s.hinfos i = some g) :
    History (τ ++ [.deleted i]) (s.setHinfo i (some { g with del := true })) := by
  refine h.keep hok (grows_setHinfo hi ?_) rfl (by simp) ?_ (why_update hi rfl (by simp)) (by simp)
  · rintro _ ⟨⟩
    exact ⟨fun _ => rfl, fun hshut => ⟨rfl, hshut.2⟩⟩
  intro j hj
  obtain rfl : j = i := by simpa using hj
  exact ⟨(hok.hinfo j g hi).old, by simp +contextual⟩

/-! ## Every event -/

/-- What holds of an event after `past`. -/
def EventOk (past : List HandleEvent) : HandleEvent → Prop
  | .obtained _ i => .failed i ∉ past ∧ .deleted i ∉ past
  | .bound x r =>
      (∀ c, .bound x (some c) ∈ past →
        (r = some c ↔ ∀ i, .obtained x i ∈ past → .deleted i ∉ past)) ∧
      (.bound x none ∈ past → r = none)
  | .failed _ | .deleted _ => True
  | .fault => False

/-- What a handle was given before is what its `hinfo` has. -/
theorem cl_of_bound (h : History τ s) (hok : Ok s) (hx : s.obj x = some o) (ho : o.h = some i)
    (hi : s.hinfos i = some g) (hc : .bound x (some c) ∈ τ) : g.cl = some c :=
  hok.got hi hx ho (h.got x o c hx hc)

theorem eventOk_isNull (h : History τ s) (hok : Ok s) (hx : s.obj x = some o) (ho : o.h = none) :
    EventOk τ (.bound x none) := by
  refine ⟨fun c hc => ?_, fun _ => rfl⟩
  have hgot := h.got x o c hx hc
  rw [hok.null x o hx ho] at hgot
  cases hgot

theorem eventOk_isDeleted (h : History τ s) (hok : Ok s) (hx : s.obj x = some o) (ho : o.h = some i)
    (hi : s.hinfos i = some g) (hdel : g.del = true) : EventOk τ (.bound x none) := by
  refine ⟨fun c hc => ?_, fun _ => rfl⟩
  have hcl := cl_of_bound h hok hx ho hi hc
  refine iff_of_false (by simp) fun hall => ?_
  exact hall i ((h.named x o i hx).mp ho) (h.why i g hi hdel (.inl (by simp [hcl])))

theorem eventOk_isBound (h : History τ s) (hok : Ok s) (hx : s.obj x = some o) (ho : o.h = some i)
    (hi : s.hinfos i = some g) (hdel : g.del = false) (hcl : g.cl = some c) :
    EventOk τ (.bound x (some c)) := by
  refine ⟨fun d hd => iff_of_true ?_ ?_, fun hnone => ?_⟩
  · exact hcl.symm.trans (cl_of_bound h hok hx ho hi hd)
  · intro j hj hdeleted
    have hj' := (h.named x o j hx).mpr hj
    rw [ho] at hj'
    cases hj'
    exact absurd (hdel.symm.trans ((h.past i (.inr hdeleted)).2 g hi)) (by simp)
  · exact absurd (hdel.symm.trans (h.lost x o i g hx ho hi hnone).1) (by simp)

/-- The first `safebind` of all. -/
theorem eventOk_bound (h : History τ s) (hok : Ok s) (hx : s.obj x = some o) (ho : o.h = some i)
    (hi : s.hinfos i = some g) (hmutex : g.clMutex = some (x, c)) (r : Option Nat) :
    EventOk τ (.bound x r) := by
  refine ⟨fun d hd => ?_, fun hnone => ?_⟩
  · have hcl := cl_of_bound h hok hx ho hi hd
    rw [((hok.hinfo i g hi).binding x c hmutex).1] at hcl
    cases hcl
  · have hfree := (h.lost x o i g hx ho hi hnone).2
    rw [hmutex] at hfree
    cases hfree

end

/-! ## Whole runs -/

variable {N : Type} [DecidableEq N] {s s' : Handles N} {x i c : Nat} {o : HandleObj}
  {g : Hinfo N} {m : N}
  {τ es : List HandleEvent}

theorem free_objs (s : Handles N) (i : Nat) (g : Hinfo N) : (s.free i g).objs = s.objs := by
  unfold Handles.free
  split <;> rfl

theorem free_nhinfo (s : Handles N) (i : Nat) (g : Hinfo N) : (s.free i g).nhinfo = s.nhinfo := by
  unfold Handles.free
  split <;> rfl

theorem free_hinfos (s : Handles N) (i : Nat) (g : Hinfo N) :
    (s.free i g).hinfos = Function.update s.hinfos i none := by
  unfold Handles.free
  split <;> rfl

theorem grows_free (hi : s.hinfos i = some g) : Grows s (s.free i g) := by
  refine ⟨by rw [free_objs], by rw [free_nhinfo], ?_, ?_⟩
  · intro x o hx _
    rw [obj, free_objs] at hx
    exact ⟨o, hx, rfl, List.Subset.refl _⟩
  · rw [free_hinfos]
    exact (grows_setHinfo hi (by simp)).hinfo

theorem grows_create (s : Handles N) (m : N) : Grows s (s.create m) := by
  refine ⟨(grows_addObj s (some s.nhinfo)).objs, Nat.le_succ _,
    (grows_addObj s (some s.nhinfo)).obj, ?_⟩
  intro i g hi hlt
  exact ⟨g, (Function.update_of_ne (Nat.ne_of_lt hlt) _ _).symm.trans hi, id, id⟩

theorem History.free (h : History τ s) (hok : Ok s) (hi : s.hinfos i = some g)
    (hes : ∀ e ∈ es, e = .deleted i) : History (τ ++ es) (s.free i g) := by
  have hmem : ∀ e, e ≠ .deleted i → e ∉ es := fun e hne he => hne (hes e he)
  refine h.keep hok (grows_free hi) (by rw [free_objs]) (fun x j => hmem _ (by simp)) ?_
    (why_update hi (free_hinfos s i g) (by simp)) (fun x r hr => absurd hr (hmem _ (by simp)))
  intro j hj
  obtain rfl : j = i := by
    rcases hj with hj | hj
    · exact absurd hj (hmem _ (by simp))
    · simpa using hes _ hj
  refine ⟨(hok.hinfo j g hi).old, fun g' hg' => ?_⟩
  rw [free_hinfos, Function.update_self] at hg'
  cases hg'

theorem History.create (h : History τ s) (hok : Ok s) (m : N) :
    History (τ ++ [.obtained s.objs.length s.nhinfo]) (s.create m) := by
  refine h.grow hok (grows_create s m) ?_ ?_ (by simp) ?_ (by simp)
  · simp [Handles.create, addObj, setHinfo]
  · intro x o i hx hge
    obtain ⟨rfl, ho⟩ := named_addObj (some s.nhinfo) x o hx hge
    simp [ho, eq_comm]
  · intro j g hj hdel hcl
    change Function.update s.hinfos s.nhinfo (some (Hinfo.new m)) j = some g at hj
    by_cases hji : j = s.nhinfo
    · subst hji
      rw [Function.update_self] at hj
      cases hj
      cases hdel
    · rw [Function.update_of_ne hji] at hj
      exact why_same j g hj hdel hcl

theorem history_of_step (h : History τ s) (hok : Ok s) (hstep : Step s s' es) :
    History (τ ++ es) s' := by
  cases hstep with
  | create => exact h.create hok _
  | share hi hdel => exact h.share hok hi hdel
  | refuse => exact h.refuse hok
  | idle => rwa [List.append_nil]
  | isNull hx ho => exact h.isNull hok hx (by simp [ho])
  | isDeleted hx ho hi hmutex hdel =>
      refine h.isNull hok hx fun j g' hj hg' => ?_
      rw [ho] at hj
      cases hj
      rw [hi] at hg'
      cases hg'
      exact ⟨hdel, hmutex⟩
  | isBound hx => exact h.isBound hok hx
  | bind _ _ hi hdel => exact h.bind hok hi hdel _
  | bound hx _ hi hmutex => exact h.bound hok hx hi hmutex
  | failed hx ho hi hmutex => exact h.failed hok hx ho hi hmutex
  | dropNull hx => exact h.dropNull hok hx
  | drop hx _ hi => exact h.drop hok hx hi
  | dropLast hx ho hi hmutex =>
      have hdrop := h.drop hok hx hi
      rw [List.append_nil] at hdrop
      exact hdrop.free (hok.drop hx ho hi hmutex) (hinfos_setHinfo ..) (by simp)
  | free hi => exact h.free hok hi (by simp)
  | mark hi => exact h.mark hok hi

theorem events_of_step (h : History τ s) (hok : Ok s) (hstep : Step s s' es) :
    System.Each (fun past => EventOk (τ ++ past)) es := by
  have hone : ∀ e, EventOk τ e → System.Each (fun past => EventOk (τ ++ past)) [e] :=
    fun e he => System.each_singleton (by rwa [List.append_nil])
  cases hstep with
  | create =>
      have hnew : ¬(.failed s.nhinfo ∈ τ ∨ .deleted s.nhinfo ∈ τ) :=
        fun hi => Nat.lt_irrefl _ (h.past _ hi).1
      exact hone _ (not_or.mp hnew)
  | share hi hdel =>
      refine hone _ (not_or.mp fun hpast => ?_)
      exact absurd (hdel.symm.trans ((h.past _ hpast).2 _ hi)) (by simp)
  | refuse | idle | bind | dropNull | drop | dropLast => exact System.each_nil
  | isNull hx ho => exact hone _ (eventOk_isNull h hok hx ho)
  | isDeleted hx ho hi _ hdel => exact hone _ (eventOk_isDeleted h hok hx ho hi hdel)
  | isBound hx ho hi hdel hcl => exact hone _ (eventOk_isBound h hok hx ho hi hdel hcl)
  | bound hx ho hi hmutex => exact hone _ (eventOk_bound h hok hx ho hi hmutex _)
  | failed hx ho hi hmutex =>
      refine (hone (.failed _) trivial).append (System.each_singleton ?_)
      have hev := eventOk_bound h hok hx ho hi hmutex
      simpa [EventOk] using hev _
  | free | mark => exact hone _ trivial

theorem inv_of_run (h : (handleSystem N).Run τ s) : Ok s ∧ History τ s ∧ System.Each EventOk τ := by
  refine h.invariant (I := fun τ s => Ok s ∧ History τ s ∧ System.Each EventOk τ) ?_ ?_
  · rintro s rfl
    refine ⟨⟨?_, ?_, ?_, ?_, ?_⟩, ⟨?_, ?_, ?_, ?_, ?_, ?_⟩, System.each_nil⟩ <;> simp [new, obj]
  · rintro τ s a s' es ⟨hok, h, heach⟩ hn
    have hstep := hok.step_of_next hn
    exact ⟨ok_of_step hok hstep, history_of_step h hok hstep,
      heach.append (events_of_step h hok hstep)⟩

end Handles

/-- `hmap` has each `hinfo` that was not freed, under its name, and its count is the number of
handles that point to it. While a handle points to it, it is not freed. After a failed `safebind`,
and after `delete_handle`, no new handle gets it. And nothing that was freed is used. -/
theorem handle_lifetime {N : Type} [DecidableEq N] {τ : List HandleEvent} {s : Handles N}
    (h : (handleSystem N).Run τ s) :
    (∀ i g, s.hinfos i = some g → s.hmap g.m = some i) ∧
    (∀ m i, s.hmap m = some i → ∃ g, s.hinfos i = some g ∧ g.m = m ∧ g.refcnt = s.pointers i) ∧
    (∀ x o i, s.obj x = some o → o.h = some i → s.hinfos i ≠ none) ∧
    System.Each (fun past e => ∀ x i, e = .obtained x i → .failed i ∉ past ∧ .deleted i ∉ past) τ ∧
    .fault ∉ τ := by
  obtain ⟨hok, -, heach⟩ := Handles.inv_of_run h
  refine ⟨fun i g hi => (hok.hinfo i g hi).mapped, fun m i hm => ?_, fun x o i hx ho => ?_, ?_, ?_⟩
  · obtain ⟨g, hi, hname⟩ := hok.hmap m i hm
    exact ⟨g, hi, hname, (hok.hinfo i g hi).counted⟩
  · obtain ⟨g, hi, -⟩ := hok.points x o i hx ho
    simp [hi]
  · rintro past e post hτ x i rfl
    exact heach past _ post hτ
  · intro hfault
    obtain ⟨past, post, hτ⟩ := List.append_of_mem hfault
    exact heach past _ post hτ

/-- Two handles; a `safebind` fails; both are destroyed, and a new handle has another `hinfo`. -/
theorem handle_lifetime_failed :
    ∃ (τ : List HandleEvent) (s : Handles Unit), (handleSystem Unit).Run τ s ∧
      (s.hinfos 0 = none ∧ s.hmap () = some 1) ∧ .failed 0 ∈ τ ∧ .fault ∉ τ := by
  obtain ⟨τ, s, hrun, hgone, hfailed⟩ := (handleSystem Unit).exists_run
    (p := fun τ s => (s.hinfos 0 = none ∧ s.hmap () = some 1) ∧ .failed 0 ∈ τ)
    [.construct (), .construct (), .safebind 0, .bound 0 (-1), .safebind 1, .destruct 0,
      .destruct 1, .construct ()] rfl (by decide)
  exact ⟨τ, s, hrun, hgone, hfailed, (handle_lifetime hrun).2.2.2.2⟩

/-! ## What `safebind` returns -/

/-- What the `safebind`s of `x` returned. -/
def results (x : Nat) (τ : List HandleEvent) : List (Option Nat) :=
  τ.filterMap fun e => match e with
    | .bound y r => if y = x then some r else none
    | _ => none

/-- All later `safebind`s of `x` return what the first has returned. -/
def Stable (x : Nat) (τ : List HandleEvent) : Prop :=
  ∀ r rs, results x τ = r :: rs → ∀ r' ∈ rs, r' = r

theorem mem_results {x : Nat} {τ : List HandleEvent} {r : Option Nat} :
    r ∈ results x τ ↔ .bound x r ∈ τ := by
  unfold results
  rw [List.mem_filterMap]
  constructor
  · rintro ⟨e, he, heq⟩
    cases e with
    | bound y r' =>
        simp only at heq
        split at heq
        · cases heq
          subst y
          exact he
        · cases heq
    | _ => cases heq
  · intro hr
    exact ⟨_, hr, if_pos rfl⟩

/-- Two results, in the order in which they came. -/
theorem exists_split_of_results {x : Nat} {τ : List HandleEvent} {r r' : Option Nat}
    {rs : List (Option Nat)}
    (h : results x τ = r :: rs) (hr' : r' ∈ rs) :
    ∃ past post, τ = past ++ .bound x r' :: post ∧ .bound x r ∈ past := by
  obtain ⟨l₁, e, l₂, rfl, -, he, rfl⟩ := List.filterMap_eq_cons_iff.mp h
  obtain ⟨l₃, l₄, rfl⟩ := List.append_of_mem (mem_results.mp hr')
  refine ⟨l₁ ++ e :: l₃, l₄, by simp, ?_⟩
  have hr : r ∈ results x [e] := by simp [results, he]
  rw [← List.mem_singleton.mp (mem_results.mp hr)]
  simp

theorem Stable.eq {x : Nat} {τ : List HandleEvent} (h : Stable x τ) {r r' : Option Nat}
    (hr : .bound x r ∈ τ) (hr' : .bound x r' ∈ τ) : r = r' := by
  rw [← mem_results] at hr hr'
  unfold Stable at h
  cases hres : results x τ with
  | nil =>
      rw [hres] at hr
      cases hr
  | cons r₀ rs =>
      rw [hres] at hr hr'
      have hfirst : ∀ r, r ∈ r₀ :: rs → r = r₀ := by
        intro r hr
        rcases List.mem_cons.mp hr with rfl | hr
        · rfl
        · exact h r₀ rs hres r hr
      rw [hfirst r hr, hfirst r' hr']

/-- The `safebind`s of a handle agree, unless one has returned an `rpcc`, and another one comes
after `delete_handle`. -/
theorem safebind_stable_iff {N : Type} [DecidableEq N] {τ : List HandleEvent} {s : Handles N}
    (h : (handleSystem N).Run τ s) (x : Nat) :
    Stable x τ ↔ System.Each (fun past e => ∀ r c i, e = .bound x r → .bound x (some c) ∈ past →
      .obtained x i ∈ past → .deleted i ∉ past) τ := by
  obtain ⟨-, -, heach⟩ := Handles.inv_of_run h
  constructor
  · rintro hstable past e post rfl r c i rfl hc hi
    have hr : r = some c := hstable.eq (by simp) (List.mem_append_left _ hc)
    exact ((heach past _ post rfl).1 c hc).mp hr i hi
  · intro hkept r rs hres r' hr'
    obtain ⟨past, post, hτ, hr⟩ := exists_split_of_results hres hr'
    have hev := heach past _ post hτ
    cases r with
    | none => exact hev.2 hr
    | some c => exact (hev.1 c hr).mpr fun i hi => hkept past _ post hτ r' c i rfl hr hi

/-- Nobody calls `delete_handle`. -/
theorem safebind_stable_twice :
    ∃ (τ : List HandleEvent) (s : Handles Unit), (handleSystem Unit).Run τ s ∧
      results 0 τ = [some 0, some 0] ∧ Stable 0 τ := by
  obtain ⟨τ, s, hrun, hτ⟩ := (handleSystem Unit).exists_run
    (p := fun τ _ => τ = [.obtained 0 0, .bound 0 (some 0), .bound 0 (some 0)])
    [.construct (), .safebind 0, .bound 0 0, .call 0 0, .safebind 0] rfl (by decide)
  refine ⟨τ, s, hrun, hτ ▸ rfl, (safebind_stable_iff hrun 0).mpr ?_⟩
  intro past e post heq r c i _ _ _ hdeleted
  have : .deleted i ∈ τ := by
    rw [heq]
    exact List.mem_append_left _ hdeleted
  simp [hτ] at this

/-- The first `safebind` succeeds, and after `delete_handle` the second returns NULL. -/
theorem safebind_unstable :
    ∃ (τ : List HandleEvent) (s : Handles Unit), (handleSystem Unit).Run τ s ∧
      results 0 τ = [some 0, none] ∧ ¬Stable 0 τ := by
  obtain ⟨τ, s, hrun, hτ⟩ := (handleSystem Unit).exists_run
    (p := fun τ _ => results 0 τ = [some 0, none])
    [.construct (), .safebind 0, .bound 0 0, .deleteHandle (), .safebind 0] rfl (by decide)
  refine ⟨τ, s, hrun, hτ, fun hstable => ?_⟩
  cases hstable (some 0) [none] hτ none (by simp)

end Yfs.Rpc
