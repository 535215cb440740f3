import Mathlib.Logic.Function.Basic
import Yfs.Fs.Text

/-!
# Directories as finite maps

A directory should behave as a finite map from names to inode numbers: `DirOp.spec` says how, and
which extents the operations create and remove. The operations of `yfs_client` do behave so in every
run in which each name meets a directory whose text is clear of it, and no new inode number is that
of the directory itself (`directory_refines_map`). They do not in general: a name that reads like the
inode number of an entry is taken for present (`create_number_exists`).
-/

namespace Yfs.Fs

open Yfs.Lib
open Yfs.Rpc (Bytes)

variable {σ : Type}

/-- Extents can be read and written, and `view` is what they hold. -/
structure ExtentOps.Stores (E : ExtentOps σ) (view : σ → Inum → Option Bytes) : Prop where
  get : ∀ s i d, view s i = some d → ∃ s', E.get s i = (.ok, d, s') ∧ view s' = view s
  put : ∀ s i d, ∃ s', E.put s i d = (.ok, s') ∧ view s' = Function.update (view s) i (some d)

/-- An extent can be removed too, once it is `known`: that is from when it was first put. -/
structure ExtentOps.Works (E : ExtentOps σ) (view : σ → Inum → Option Bytes)
    (known : σ → Inum → Prop) : Prop extends E.Stores view where
  remove : ∀ s i, known s i →
    ∃ s', E.remove s i = (.ok, s') ∧ view s' = Function.update (view s) i none
  known_get : ∀ s i j, known s j → known (E.get s i).2.2 j
  known_put : ∀ s i d j, j = i ∨ known s j → known (E.put s i d).2 j
  known_remove : ∀ s i j, known s j → known (E.remove s i).2 j

/-! ## Runs -/

/-- A call on the directory. In `create`, `rand()` gives `rand`; in `lookup` and `unlink`, the
number that `n2i` does not initialise holds `junk`. -/
inductive DirOp where
  | create (name : Bytes) (isfile : Bool) (rand : UInt32)
  | lookup (name : Bytes) (junk : Inum)
  | unlink (name : Bytes) (junk : Inum)
  deriving DecidableEq, Repr

/-- What a call returns, with the inode number it has written to its reference parameter. -/
inductive Response where
  | create (ret : Status) (ino : Option Inum)
  | lookup (ret : Bool) (ino : Option Inum)
  | unlink (ret : Status)
  deriving DecidableEq, Repr

@[simp] def DirOp.name : DirOp → Bytes
  | create name _ _ | lookup name _ | unlink name _ => name

def DirOp.step (E : ExtentOps σ) (parent : Inum) (s : σ) : DirOp → Option (σ × Response)
  | create name isfile rand =>
      (Fs.create E parent name isfile rand s).map fun r => (r.1, .create r.2.1 r.2.2)
  | lookup name junk => (Fs.lookup E parent name junk s).map fun r => (r.1, .lookup r.2.1 r.2.2)
  | unlink name junk => (Fs.unlink E parent name junk s).map fun r => (r.1, .unlink r.2)

/-- One call after the other. -/
def run (E : ExtentOps σ) (parent : Inum) (s : σ) : List DirOp → Option (σ × List Response)
  | [] => some (s, [])
  | op :: ops => do
      let (s, r) ← op.step E parent s
      let (s, rs) ← run E parent s ops
      return (s, r :: rs)

/-! ## The specification -/

/-- A directory as a map, and the other extents. -/
structure DirSpec where
  dir : Bytes → Option Inum
  files : Inum → Option Bytes

def DirOp.spec (a : DirSpec) : DirOp → DirSpec × Response
  | create name isfile rand =>
      match a.dir name with
      | some _ => (a, .create .exist none)
      | none =>
          let num := randInum isfile rand
          ({ dir := Function.update a.dir name (some num)
             files := Function.update a.files num (some []) }, .create .ok (some num))
  | lookup name _ =>
      match a.dir name with
      | some ino => (a, .lookup true (some ino))
      | none => (a, .lookup false none)
  | unlink name _ =>
      match a.dir name with
      | some ino =>
          ({ dir := Function.update a.dir name none
             files := Function.update a.files ino none }, .unlink .ok)
      | none => (a, .unlink .noent)

def specRun (a : DirSpec) : List DirOp → DirSpec × List Response
  | [] => (a, [])
  | op :: ops =>
      let r := op.spec a
      let rs := specRun r.1 ops
      (rs.1, r.2 :: rs.2)

/-! ## When the code behaves so -/

/-- The entries after a call, in the order in which they were created. -/
def DirOp.entries (es : List Entry) : DirOp → List Entry
  | create name isfile rand =>
      if name ∈ names es then es else es ++ [⟨randInum isfile rand, name⟩]
  | lookup .. => es
  | unlink name _ => es.eraseP fun e => e.name = name

/-- No inode number is taken for the name, and a new one is not the directory's own. -/
def DirOp.Safe (parent : Inum) (es : List Entry) : DirOp → Prop
  | create name isfile rand =>
      name ∈ names es ∨ Clear name es ∧ randInum isfile rand ≠ parent
  | lookup name _ | unlink name _ => Clear name es

def AllSafe (parent : Inum) (es : List Entry) : List DirOp → Prop
  | [] => True
  | op :: ops => op.Safe parent es ∧ AllSafe parent (op.entries es) ops

instance decidableSafe (parent : Inum) (es : List Entry) :
    (op : DirOp) → Decidable (op.Safe parent es)
  | .create name isfile rand => inferInstanceAs
      (Decidable (name ∈ names es ∨ Clear name es ∧ randInum isfile rand ≠ parent))
  | .lookup name _ | .unlink name _ => inferInstanceAs (Decidable (Clear name es))

instance decidableAllSafe (parent : Inum) (es : List Entry) :
    (ops : List DirOp) → Decidable (AllSafe parent es ops)
  | [] => inferInstanceAs (Decidable True)
  | op :: ops =>
      have := decidableAllSafe parent (op.entries es) ops
      inferInstanceAs (Decidable (op.Safe parent es ∧ AllSafe parent (op.entries es) ops))

/-! ## One call -/

/-- The state `s` holds a directory with the entries `es`, which is the map of `a`. -/
structure Holds (view : σ → Inum → Option Bytes) (known : σ → Inum → Prop) (parent : Inum) (s : σ)
    (es : List Entry) (a : DirSpec) : Prop where
  text : view s parent = some (content es)
  dir : ∀ name, a.dir name = (es.find? fun e => e.name = name).map Entry.ino
  files : ∀ i, i ≠ parent → view s i = a.files i
  slash : ∀ e ∈ es, slash ∉ e.name
  nodup : (names es).Nodup
  other : ∀ e ∈ es, e.ino ≠ parent
  known : ∀ e ∈ es, known s e.ino

variable {E : ExtentOps σ} {view : σ → Inum → Option Bytes} {known : σ → Inum → Prop}
  {parent junk : Inum} {s : σ} {es : List Entry} {a : DirSpec} {name : Bytes}

theorem exists_split (h : name ∈ names es) :
    ∃ pre e post, es = pre ++ e :: post ∧ e.name = name ∧ name ∉ names pre := by
  obtain ⟨as, bs, hsplit, hno⟩ := List.eq_append_cons_of_mem h
  obtain ⟨pre, rest, rfl, rfl, hrest⟩ := List.map_eq_append_iff.mp hsplit
  obtain ⟨e, post, rfl, he, -⟩ := List.map_eq_cons_iff.mp hrest
  exact ⟨pre, e, post, rfl, he, hno⟩

theorem find_entry_none (h : name ∉ names es) : (es.find? fun e => e.name = name) = none := by
  simpa [names] using h

theorem find_entry {pre post : List Entry} {e : Entry} (h : e.name ∉ names pre) :
    ((pre ++ e :: post).find? fun e' => e'.name = e.name) = some e := by
  rw [List.find?_append, find_entry_none h]
  simp

/-- The directory is read. -/
theorem Holds.get (hE : E.Works view known) (h : Holds view known parent s es a) :
    ∃ s', E.get s parent = (.ok, content es, s') ∧ view s' = view s ∧
      (∀ j, known s j → known s' j) ∧ Holds view known parent s' es a := by
  obtain ⟨s', hget, hview⟩ := hE.get s parent _ h.text
  have hknown : ∀ j, known s j → known s' j := by
    intro j hj
    simpa [hget] using hE.known_get s parent j hj
  refine ⟨s', hget, hview, hknown, ?_⟩
  exact ⟨hview ▸ h.text, h.dir, hview ▸ h.files, h.slash, h.nodup, h.other,
    fun e he => hknown _ (h.known e he)⟩

/-- Adding an entry. -/
theorem Holds.add {s' : σ} (h : Holds view known parent s es a) {num : Inum} (hname : Fs.slash ∉ name)
    (hmem : name ∉ names es) (hnum : num ≠ parent)
    (hknown : ∀ j, j = num ∨ known s j → known s' j)
    (hview : view s' = Function.update (Function.update (view s) num (some [])) parent
      (some (content es ++ (filename num ++ pattern name)))) :
    Holds view known parent s' (es ++ [⟨num, name⟩])
      { dir := Function.update a.dir name (some num)
        files := Function.update a.files num (some []) } where
  text := by
    rw [hview, Function.update_self, content_concat]
  dir n := by
    rw [List.find?_append]
    by_cases hn : n = name
    · subst hn
      simp [find_entry_none hmem]
    · simp [hn, h.dir, Ne.symm hn]
  files i hi := by
    rw [hview, Function.update_of_ne hi]
    by_cases hin : i = num
    · simp [hin]
    · simp [hin, h.files i hi]
  slash := by
    simp only [List.mem_append, List.mem_singleton]
    rintro e (he | rfl)
    · exact h.slash e he
    · exact hname
  nodup := by
    rw [names, List.map_append, List.nodup_append]
    refine ⟨h.nodup, by simp, fun n hn n' hn' heq => hmem ?_⟩
    simp only [List.map_cons, List.map_nil, List.mem_singleton] at hn'
    rwa [← hn', ← heq]
  other := by
    simp only [List.mem_append, List.mem_singleton]
    rintro e (he | rfl)
    · exact h.other e he
    · exact hnum
  known := by
    simp only [List.mem_append, List.mem_singleton]
    rintro e (he | rfl)
    · exact hknown _ (.inr (h.known e he))
    · exact hknown _ (.inl rfl)

/-- Removing an entry. -/
theorem Holds.erase {s' : σ} {pre post : List Entry} {e : Entry}
    (h : Holds view known parent s (pre ++ e :: post) a) (hknown : ∀ j, known s j → known s' j)
    (hview : view s' = Function.update (Function.update (view s) e.ino none) parent
      (some (content pre ++ content post))) :
    Holds view known parent s' (pre ++ post)
      { dir := Function.update a.dir e.name none
        files := Function.update a.files e.ino none } where
  text := by
    rw [hview, Function.update_self]
    simp [content, tokens]
  dir n := by
    by_cases hn : n = e.name
    · subst hn
      have hno : e.name ∉ names (pre ++ post) := by
        have := h.nodup
        simp [names, List.nodup_append, List.nodup_cons] at this ⊢
        grind
      rw [find_entry_none hno]
      simp
    · simp [hn, Ne.symm hn, h.dir, List.find?_append]
  files i hi := by
    rw [hview, Function.update_of_ne hi]
    by_cases hin : i = e.ino
    · simp [hin]
    · simp [hin, h.files i hi]
  slash e' he' := h.slash e' (by simp at he' ⊢; tauto)
  nodup := h.nodup.sublist (by simp [names])
  other e' he' := h.other e' (by simp at he' ⊢; tauto)
  known e' he' := hknown _ (h.known e' (by simp at he' ⊢; tauto))

theorem Holds.create (hE : E.Works view known) (hdir : isdir parent = true)
    (h : Holds view known parent s es a)
    {isfile : Bool} {rand : UInt32} (hname : Fs.slash ∉ name)
    (hsafe : (DirOp.create name isfile rand).Safe parent es) :
    ∃ s', (DirOp.create name isfile rand).step E parent s =
        some (s', ((DirOp.create name isfile rand).spec a).2) ∧
      Holds view known parent s' ((DirOp.create name isfile rand).entries es)
        ((DirOp.create name isfile rand).spec a).1 := by
  obtain ⟨s₁, hget, hview₁, hknown₁, h₁⟩ := h.get hE
  by_cases hmem : name ∈ names es
  · -- whatever token is found, the answer EXIST is right
    have hfind := find_content_isSome h.slash hmem
    obtain ⟨pre, e, post, rfl, rfl, hpre⟩ := exists_split hmem
    refine ⟨s₁, ?_, ?_⟩
    · simp [DirOp.step, Fs.create, hdir, hget, hfind, DirOp.spec, h.dir, find_entry hpre]
    · simpa [DirOp.entries, hmem, DirOp.spec, h.dir, find_entry hpre] using h₁
  · obtain ⟨hclear, hnum⟩ := hsafe.resolve_left hmem
    have hfind := find_content_none hname h.slash hclear hmem
    obtain ⟨s₂, hput, hview₂⟩ := hE.put s₁ (randInum isfile rand) []
    obtain ⟨s₃, hput', hview₃⟩ := hE.put s₂ parent
      (content es ++ (filename (randInum isfile rand) ++ pattern name))
    have hknown : ∀ j, j = randInum isfile rand ∨ known s j → known s₃ j := by
      intro j hj
      have h₂ := hE.known_put s₁ _ [] j (hj.imp_right (hknown₁ j))
      rw [hput] at h₂
      have h₃ := hE.known_put s₂ parent
        (content es ++ (filename (randInum isfile rand) ++ pattern name))
        j (.inr h₂)
      rwa [hput'] at h₃
    refine ⟨s₃, ?_, ?_⟩
    · simp [DirOp.step, Fs.create, hdir, hget, hfind, DirOp.spec, h.dir, find_entry_none hmem, hput,
        hput', hnum, randInum_and]
    · rw [hview₂, hview₁] at hview₃
      simpa [DirOp.entries, hmem, DirOp.spec, h.dir, find_entry_none hmem] using
        h.add hname hmem hnum hknown hview₃

/-- The inode number of an entry is read back. -/
theorem entry_text (pre post : List Entry) (e : Entry) (junk : Inum) :
    let b := content (pre ++ e :: post)
    let found := (content pre).length + (filename e.ino).length
    let left := leftOf b found
    left = (content pre).length ∧ left < found ∧ n2i junk (substr b left (found - left)) = e.ino := by
  have hleft : leftOf (content (pre ++ e :: post))
      ((content pre).length + (filename e.ino).length) = (content pre).length := by
    rw [content_split]
    exact leftOf_content _
  have hpos := List.length_pos_iff.mpr (filename_ne_nil e.ino)
  refine ⟨hleft, by rw [hleft]; omega, ?_⟩
  rw [hleft, content_split, substr, Nat.add_sub_cancel_left, List.drop_left', List.take_left',
    n2i_filename] <;> rfl

/-- The text without an entry is what comes before it and what comes after it. -/
theorem text_without (pre post : List Entry) (e : Entry) :
    let b := content (pre ++ e :: post)
    let left := (content pre).length
    let stop := left + (filename e.ino).length + (pattern e.name).length
    (if left ≠ 0 then substr b 0 left else []) ++
      (if stop < b.length then substr b stop (b.length - stop) else []) =
        content pre ++ content post := by
  have htokens : tokens (pre ++ e :: post) =
      tokens pre ++ filename e.ino :: e.name :: tokens post := by
    simp [tokens]
  have h := text_cut (tokens pre) (tokens post) (filename e.ino) e.name
  rw [← htokens, joinSep_append] at h
  exact h

theorem Holds.lookup (hE : E.Works view known) (hdir : isdir parent = true)
    (h : Holds view known parent s es a)
    (hne : name ≠ []) (hname : Fs.slash ∉ name) (hsafe : Clear name es) :
    ∃ s', (DirOp.lookup name junk).step E parent s = some (s', ((DirOp.lookup name junk).spec a).2) ∧
      Holds view known parent s' ((DirOp.lookup name junk).entries es)
        ((DirOp.lookup name junk).spec a).1 := by
  obtain ⟨s₁, hget, hview₁, hknown₁, h₁⟩ := h.get hE
  refine ⟨s₁, ?_⟩
  by_cases hmem : name ∈ names es
  · obtain ⟨pre, e, post, rfl, rfl, hpre⟩ := exists_split hmem
    have hfind := find_content h.slash hsafe hpre
    obtain ⟨-, hlt, hino⟩ := entry_text pre post e junk
    refine ⟨?_, ?_⟩
    · simp [DirOp.step, Fs.lookup, hdir, hget, hfind, DirOp.spec, h.dir, find_entry hpre, hne, hino]
      exact ⟨fun _ => filename_ne_nil _, hlt⟩
    · simpa [DirOp.entries, DirOp.spec, h.dir, find_entry hpre] using h₁
  · have hfind := find_content_none hname h.slash hsafe hmem
    refine ⟨?_, ?_⟩
    · simp [DirOp.step, Fs.lookup, hdir, hget, hfind, DirOp.spec, h.dir, find_entry_none hmem, hne]
    · simpa [DirOp.entries, DirOp.spec, h.dir, find_entry_none hmem] using h₁

theorem Holds.unlink (hE : E.Works view known) (hdir : isdir parent = true)
    (h : Holds view known parent s es a)
    (hname : Fs.slash ∉ name) (hsafe : Clear name es) :
    ∃ s', (DirOp.unlink name junk).step E parent s = some (s', ((DirOp.unlink name junk).spec a).2) ∧
      Holds view known parent s' ((DirOp.unlink name junk).entries es)
        ((DirOp.unlink name junk).spec a).1 := by
  obtain ⟨s₁, hget, hview₁, hknown₁, h₁⟩ := h.get hE
  by_cases hmem : name ∈ names es
  · obtain ⟨pre, e, post, rfl, rfl, hpre⟩ := exists_split hmem
    have hfind := find_content h.slash hsafe hpre
    have hother : e.ino ≠ parent := h.other e (by simp)
    obtain ⟨hleft, hlt, hino⟩ := entry_text pre post e junk
    obtain ⟨s₂, hremove, hview₂⟩ := hE.remove s₁ e.ino (h₁.known e (by simp))
    obtain ⟨s₃, hput, hview₃⟩ := hE.put s₂ parent (content pre ++ content post)
    have hknown : ∀ j, known s j → known s₃ j := by
      intro j hj
      have h₂ := hE.known_remove s₁ e.ino j (hknown₁ j hj)
      rw [hremove] at h₂
      have h₃ := hE.known_put s₂ parent (content pre ++ content post) j (.inr h₂)
      rwa [hput] at h₃
    refine ⟨s₃, ?_, ?_⟩
    · have hafter := text_without pre post e
      simp only [hleft] at hlt hino
      simp only [DirOp.step, Fs.unlink, hdir, hget, hfind, hleft, hino, hother, hremove, hafter, hput,
        DirOp.spec, h.dir, find_entry hpre, Nat.not_le.mpr hlt, if_true, if_false, ne_eq,
        not_true_eq_false, Option.map_some]
    · -- the entry taken out is the first one with this name
      rw [hview₂, hview₁] at hview₃
      have herase : (pre ++ e :: post).eraseP (fun e' => e'.name = e.name) = pre ++ post := by
        rw [List.eraseP_append_right]
        · simp
        · intro e' he'
          simpa using fun heq => hpre (List.mem_map.mpr ⟨e', he', heq⟩)
      simpa [DirOp.entries, DirOp.spec, h.dir, find_entry hpre, herase] using h.erase hknown hview₃
  · have hfind := find_content_none hname h.slash hsafe hmem
    have herase : es.eraseP (fun e => e.name = name) = es := by
      refine List.eraseP_of_forall_not fun e he => ?_
      simpa using fun heq => hmem (List.mem_map.mpr ⟨e, he, heq⟩)
    refine ⟨s₁, ?_, ?_⟩
    · simp [DirOp.step, Fs.unlink, hdir, hget, hfind, DirOp.spec, h.dir, find_entry_none hmem]
    · simpa [DirOp.entries, DirOp.spec, h.dir, find_entry_none hmem, herase] using h₁

/-! ## Every run -/

theorem Holds.run (hE : E.Works view known) (hdir : isdir parent = true)
    (h : Holds view known parent s es a)
    {ops : List DirOp} (hnames : ∀ op ∈ ops, op.name ≠ [] ∧ Fs.slash ∉ op.name)
    (hsafe : AllSafe parent es ops) :
    ∃ s' es', Fs.run E parent s ops = some (s', (specRun a ops).2) ∧
      Holds view known parent s' es' (specRun a ops).1 := by
  induction ops generalizing s es a with
  | nil => exact ⟨s, es, rfl, h⟩
  | cons op ops ih =>
      obtain ⟨hne, hname⟩ := hnames op (by simp)
      obtain ⟨hop, hsafe⟩ := hsafe
      obtain ⟨s₁, hstep, h₁⟩ : ∃ s₁, op.step E parent s = some (s₁, (op.spec a).2) ∧
          Holds view known parent s₁ (op.entries es) (op.spec a).1 := by
        cases op with
        | create name isfile rand => exact h.create hE hdir hname hop
        | lookup name junk => exact h.lookup hE hdir hne hname hop
        | unlink name junk => exact h.unlink hE hdir hname hop
      obtain ⟨s', es', hrun, h'⟩ := ih h₁ (fun op' hop' => hnames op' (by simp [hop'])) hsafe
      exact ⟨s', es', by simp [Fs.run, hstep, hrun, specRun], h'⟩

/-- In every run from an empty directory in which no inode number is taken for a name and none is
the directory's own, all calls return what they return on a map, the directory holds the entries of
the map, and the other extents are as the map's operations leave them. -/
theorem directory_refines_map (hE : E.Works view known) (hdir : isdir parent = true)
    (hempty : view s parent = some []) {ops : List DirOp}
    (hnames : ∀ op ∈ ops, op.name ≠ [] ∧ Fs.slash ∉ op.name) (hsafe : AllSafe parent [] ops) :
    let a := specRun ⟨fun _ => none, view s⟩ ops
    ∃ s' es, run E parent s ops = some (s', a.2) ∧ view s' parent = some (content es) ∧
      (∀ name, a.1.dir name = (es.find? fun e => e.name = name).map Entry.ino) ∧
      ∀ i, i ≠ parent → view s' i = a.1.files i := by
  have h : Holds view known parent s [] ⟨fun _ => none, view s⟩ :=
    ⟨hempty, fun _ => rfl, fun _ _ => rfl, by simp, by simp [names], by simp, by simp⟩
  obtain ⟨s', es, hrun, h'⟩ := h.run hE hdir hnames hsafe
  exact ⟨s', es, hrun, h'.text, h'.dir, h'.files⟩

/-- Extents in a map. -/
def mapOps : ExtentOps (Inum → Option Bytes) where
  get s i := match s i with
    | some d => (.ok, d, s)
    | none => (.noent, [], s)
  put s i d := (.ok, Function.update s i (some d))
  remove s i := (.ok, Function.update s i none)

theorem mapOps_works : mapOps.Works id fun _ _ => True where
  get s i d h := ⟨s, by simp [mapOps, show s i = some d from h], rfl⟩
  put _ _ _ := ⟨_, rfl, rfl⟩
  remove _ _ _ := ⟨_, rfl, rfl⟩
  known_get _ _ _ _ := trivial
  known_put _ _ _ _ _ := trivial
  known_remove _ _ _ _ := trivial

/-- Two entries, one of them unlinked: "b" is found, "a" is not, and can be created again. -/
theorem directory_refines_map_two_entries :
    ((run mapOps 1 (fun _ => some []) [.create [97] true 5, .create [98] false 7, .unlink [97] 0,
        .lookup [98] 0, .lookup [97] 0, .create [97] false 9]).map Prod.snd) =
      some [.create .ok (some 0x80000005), .create .ok (some 7), .unlink .ok, .lookup true (some 7),
        .lookup false none, .create .ok (some 9)] := by
  have hsafe : AllSafe 1 [] [.create [97] true 5, .create [98] false 7, .unlink [97] 0, .lookup [98] 0,
      .lookup [97] 0, .create [97] false 9] := by
    decide +kernel
  obtain ⟨s', es, hrun, -⟩ := directory_refines_map mapOps_works (s := fun _ => some []) (by decide)
    rfl (by decide) hsafe
  simp only [hrun, Option.map_some]
  decide +kernel

/-- With the entries "a" for inode 5 and "b" for inode 7, the name "7" is refused, though there is
no such entry. -/
theorem create_number_exists :
    ((run mapOps 1 (fun _ => some []) [.create [97] false 5, .create [98] false 7,
        .create [55] false 9]).map Prod.snd) =
      some [.create .ok (some 5), .create .ok (some 7), .create .exist none] ∧
    (specRun ⟨fun _ => none, fun _ => some []⟩ [.create [97] false 5, .create [98] false 7,
        .create [55] false 9]).2 =
      [.create .ok (some 5), .create .ok (some 7), .create .ok (some 9)] := by
  decide +kernel

end Yfs.Fs
