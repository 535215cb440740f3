import Yfs.Fs.Programs

/-!
# The file system behind the extents

What the extents are for: inode numbers stand for directories, which map names to inode numbers, and
for files, which hold bytes. `YfsCall.spec` says what each call should do to such a file system.

If a call creates nothing under a number in use, then the file system stays a tree
(`YfsCall.rooted_spec`): entries lead to nodes, and every node has exactly one path from the root.
-/

namespace Yfs.Fs

open Yfs.Lib Function
open Yfs.Rpc (Bytes)

/-! ## The file system -/

/-- What an inode number stands for. -/
inductive Node where
  /-- The entries are in the order in which they were created. -/
  | dir (entries : List Entry)
  | file (data : Bytes)
  deriving DecidableEq, Repr

/-- What is stored for a node. -/
def Node.bytes : Node → Bytes
  | dir es => content es
  | file data => data

/-- What `create` makes. -/
def Node.new (isfile : Bool) : Node := if isfile then .file [] else .dir []

abbrev Tree := Inum → Option Node

/-- An empty root directory, as the extent server makes it when it starts. -/
def Tree.initial : Tree := fun i => if i = 1 then some (.dir []) else none

namespace YfsCall

/-- What a call should do. A read beyond the end of a file does not return. -/
def spec (t : Tree) : YfsCall → Option (YfsResult × Tree)
  | create parent name isfile rand =>
      match t parent with
      | some (.dir es) =>
          if ∃ e ∈ es, e.name = name then some (.create .exist none, t)
          else
            let num := randInum isfile rand
            some (.create .ok (some num), update (update t num (some (.new isfile))) parent
              (some (.dir (es ++ [⟨num, name⟩]))))
      | _ => some (.create .noent none, t)
  | lookup parent name _ =>
      match t parent with
      | some (.dir es) =>
          match es.find? fun e => e.name = name with
          | some e => some (.lookup true (some e.ino), t)
          | none => some (.lookup false none, t)
      | _ => some (.lookup false none, t)
  | read ino size off =>
      match t ino with
      | some (.file data) =>
          let off := off.toInt.toNat
          if off ≤ data.length then
            some (.read .ok (some ((data.drop off).take size.toNat ++
              List.replicate (off + size.toNat - data.length) 0)), t)
          else none
      | _ => some (.read .noent none, t)
  | write ino buf off =>
      match t ino with
      | some (.file data) =>
          if off < 0 then some (.status .noent, t)
          else
            some (.status .ok, update t ino (some (.file (splice data buf off.toInt.toNat))))
      | _ => some (.status .noent, t)
  | setattr fileno stSize =>
      match t fileno with
      | some (.file data) =>
          let size := stSize.toInt.toNat
          some (.status .ok, update t fileno
            (some (.file (data.take size ++ List.replicate (size - data.length) 0))))
      | _ => some (.status .noent, t)
  | getdata ino =>
      match t ino with
      | some n => some (.getdata .ok n.bytes, t)
      | none => some (.getdata .noent [], t)

/-- The inode number that a call draws. -/
def number : YfsCall → Option Inum
  | create _ _ isfile rand => some (randInum isfile rand)
  | _ => none

end YfsCall

/-! ## The file system is a tree -/

/-- The names that lead from the root to a node. -/
inductive Tree.Path (t : Tree) : List Bytes → Inum → Prop where
  | root : Path t [] 1
  | entry {p : List Bytes} {i : Inum} {es : List Entry} {e : Entry} :
      Path t p i → t i = some (.dir es) → e ∈ es → Path t (p ++ [e.name]) e.ino

/-- Entries lead to nodes, no two entries to the same one, and none to the root. -/
structure Tree.Rooted (t : Tree) : Prop where
  root : t 1 ≠ none
  entry : ∀ i es e, t i = some (.dir es) → e ∈ es → e.ino ≠ 1 ∧ t e.ino ≠ none
  unique : ∀ i es e j fs f, t i = some (.dir es) → e ∈ es → t j = some (.dir fs) → f ∈ fs →
    e.ino = f.ino → i = j ∧ e = f
  reached : ∀ i, t i ≠ none → ∃ p, t.Path p i

namespace Tree

variable {t t' : Tree} {p q : List Bytes} {i : Inum}

/-- A path stays when directories only grow. -/
theorem Path.mono (h : t.Path p i)
    (hdir : ∀ j es, t j = some (.dir es) → ∃ fs, t' j = some (.dir fs) ∧ ∀ e ∈ es, e ∈ fs) :
    t'.Path p i := by
  induction h with
  | root => exact .root
  | entry _ hes he ih =>
      obtain ⟨fs, hfs, hsub⟩ := hdir _ _ hes
      exact .entry ih hfs (hsub _ he)

theorem Rooted.path_unique (h : t.Rooted) (hp : t.Path p i) (hq : t.Path q i) : p = q := by
  induction hp generalizing q with
  | root =>
      generalize hi : (1 : Inum) = i at hq
      cases hq with
      | root => rfl
      | entry _ hes he => exact absurd hi.symm (h.entry _ _ _ hes he).1
  | @entry p i es e _ hes he ih =>
      generalize hi : e.ino = j at hq
      cases hq with
      | root => exact absurd hi (h.entry _ _ _ hes he).1
      | entry hq hfs hf =>
          obtain ⟨rfl, rfl⟩ := h.unique _ _ _ _ _ _ hes he hfs hf hi
          rw [ih hq]

theorem rooted_initial : initial.Rooted := by
  have hdir : ∀ i es, initial i = some (.dir es) → es = [] := by
    intro i es h
    unfold initial at h
    split at h <;> cases h
    rfl
  refine ⟨by simp [initial], fun i es e hes he => ?_, fun i es e _ _ _ hes he => ?_, fun i hi => ?_⟩
  · rw [hdir i es hes] at he
    cases he
  · rw [hdir i es hes] at he
    cases he
  · have hroot : i = 1 := by
      by_contra hne
      exact hi (by simp [initial, hne])
    rw [hroot]
    exact ⟨[], .root⟩

/-- A file gets other contents. -/
theorem Rooted.file (h : t.Rooted) {old new : Bytes} (hi : t i = some (.file old)) :
    Rooted (update t i (some (.file new))) := by
  have hdir : ∀ j es, update t i (some (.file new)) j = some (.dir es) ↔ t j = some (.dir es) := by
    intro j es
    by_cases hj : j = i
    · subst hj
      simp [hi]
    · rw [update_of_ne hj]
  have hnone : ∀ j, update t i (some (.file new)) j ≠ none ↔ t j ≠ none := by
    intro j
    by_cases hj : j = i
    · subst hj
      simp [hi]
    · rw [update_of_ne hj]
  constructor
  · exact (hnone 1).mpr h.root
  · intro j es e hes he
    rw [hnone]
    exact h.entry j es e ((hdir j es).mp hes) he
  · intro j es e k fs f hes he hfs hf
    exact h.unique j es e k fs f ((hdir j es).mp hes) he ((hdir k fs).mp hfs) hf
  · intro j hj
    obtain ⟨p, hp⟩ := h.reached j ((hnone j).mp hj)
    exact ⟨p, hp.mono fun k es hes => ⟨es, (hdir k es).mpr hes, fun _ he => he⟩⟩

/-- A node is added under a number that is not in use. -/
theorem Rooted.create (h : t.Rooted) {parent num : Inum} {es : List Entry} {name : Bytes}
    {file : Bool} (hparent : t parent = some (.dir es)) (hnum : t num = none) :
    Rooted (update (update t num (some (.new file))) parent
      (some (.dir (es ++ [⟨num, name⟩])))) := by
  have hne : num ≠ parent := by
    intro heq
    rw [heq, hparent] at hnum
    cases hnum
  have hroot : num ≠ 1 := by
    intro heq
    rw [heq] at hnum
    exact h.root hnum
  generalize ht' : update (update t num (some (.new file))) parent
    (some (.dir (es ++ [⟨num, name⟩]))) = t'
  have hself : t' parent = some (.dir (es ++ [⟨num, name⟩])) := by
    rw [← ht', update_self]
  have hnew : t' num = some (.new file) := by
    rw [← ht', update_of_ne hne, update_self]
  have hother : ∀ j, j ≠ parent → j ≠ num → t' j = t j := by
    intro j hj hj'
    rw [← ht', update_of_ne hj, update_of_ne hj']
  have hkept : ∀ j, t j ≠ none → t' j ≠ none := by
    intro j hj
    by_cases hjp : j = parent
    · simp [hjp, hself]
    · by_cases hjn : j = num
      · simp [hjn, hnew]
      · rw [hother j hjp hjn]
        exact hj
  -- an entry is the new one, or it was there before
  have hentry : ∀ j fs f, t' j = some (.dir fs) → f ∈ fs →
      (j = parent ∧ f = ⟨num, name⟩) ∨ ∃ gs, t j = some (.dir gs) ∧ f ∈ gs := by
    intro j fs f hfs hf
    by_cases hjp : j = parent
    · subst hjp
      rw [hself] at hfs
      cases hfs
      rcases List.mem_append.mp hf with hf | hf
      · exact .inr ⟨es, hparent, hf⟩
      · exact .inl ⟨rfl, List.mem_singleton.mp hf⟩
    · by_cases hjn : j = num
      · rw [hjn, hnew, Node.new] at hfs
        cases file <;> cases hfs
        cases hf
      · rw [hother j hjp hjn] at hfs
        exact .inr ⟨fs, hfs, hf⟩
  have hold : ∀ j gs f, t j = some (.dir gs) → f ∈ gs → f.ino ≠ num := by
    intro j gs f hgs hf heq
    exact (h.entry j gs f hgs hf).2 (heq ▸ hnum)
  have hgrows : ∀ j gs, t j = some (.dir gs) → ∃ fs, t' j = some (.dir fs) ∧ ∀ e ∈ gs, e ∈ fs := by
    intro j gs hgs
    by_cases hjp : j = parent
    · subst hjp
      rw [hparent] at hgs
      cases hgs
      exact ⟨_, hself, fun e he => List.mem_append_left _ he⟩
    · have hjn : j ≠ num := by
        intro heq
        rw [heq, hnum] at hgs
        cases hgs
      exact ⟨gs, by rw [hother j hjp hjn, hgs], fun _ he => he⟩
  constructor
  · exact hkept 1 h.root
  · intro j fs f hfs hf
    rcases hentry j fs f hfs hf with ⟨-, rfl⟩ | ⟨gs, hgs, hf⟩
    · exact ⟨hroot, by simp [hnew]⟩
    · obtain ⟨hf₁, hf₂⟩ := h.entry j gs f hgs hf
      exact ⟨hf₁, hkept _ hf₂⟩
  · intro j fs f k gs g hfs hf hgs hg heq
    rcases hentry j fs f hfs hf with ⟨rfl, rfl⟩ | ⟨fs', hfs', hf'⟩
    · rcases hentry k gs g hgs hg with ⟨rfl, rfl⟩ | ⟨gs', hgs', hg'⟩
      · exact ⟨rfl, rfl⟩
      · exact absurd heq.symm (hold k gs' g hgs' hg')
    · rcases hentry k gs g hgs hg with ⟨rfl, rfl⟩ | ⟨gs', hgs', hg'⟩
      · exact absurd heq (hold j fs' f hfs' hf')
      · exact h.unique j fs' f k gs' g hfs' hf' hgs' hg' heq
  · intro j hj
    by_cases hjn : j = num
    · obtain ⟨p, hp⟩ := h.reached parent (by simp [hparent])
      rw [hjn]
      exact ⟨_, .entry (e := ⟨num, name⟩) (hp.mono hgrows) hself (by simp)⟩
    · have htj : t j ≠ none := by
        by_cases hjp : j = parent
        · simp [hjp, hparent]
        · rw [← hother j hjp hjn]
          exact hj
      obtain ⟨p, hp⟩ := h.reached j htj
      exact ⟨p, hp.mono hgrows⟩

end Tree

/-- What a call can add is the number it has drawn, and the file system stays a tree. -/
theorem YfsCall.rooted_spec {t t' : Tree} {c : YfsCall} {r : YfsResult}
    (hnum : ∀ n, c.number = some n → t n = none) (hspec : c.spec t = some (r, t')) :
    (t.Rooted → t'.Rooted) ∧ ∀ i, t i = none → t' i ≠ none → c.number = some i := by
  have hsame : t' = t → (t.Rooted → t'.Rooted) ∧
      ∀ i, t i = none → t' i ≠ none → c.number = some i := by
    rintro rfl
    exact ⟨id, fun i hi hi' => absurd hi hi'⟩
  have hfile : ∀ ino old new, t ino = some (.file old) → t' = update t ino (some (.file new)) →
      (t.Rooted → t'.Rooted) ∧ ∀ i, t i = none → t' i ≠ none → c.number = some i := by
    rintro ino old new hino rfl
    refine ⟨fun h => h.file hino, fun i hi hi' => ?_⟩
    have hne : i ≠ ino := by
      rintro rfl
      rw [hino] at hi
      cases hi
    rw [update_of_ne hne] at hi'
    exact absurd hi hi'
  cases c with
  | create parent name isfile rand =>
      simp only [spec] at hspec
      split at hspec
      · rename_i es hparent
        split at hspec
        · cases hspec
          exact hsame rfl
        · cases hspec
          refine ⟨fun h => h.create hparent (hnum _ rfl), fun i hi hi' => ?_⟩
          by_contra hne
          have hin : i ≠ randInum isfile rand := fun heq => hne (by rw [heq]; rfl)
          have hip : i ≠ parent := by
            rintro rfl
            rw [hparent] at hi
            cases hi
          rw [update_of_ne hip, update_of_ne hin] at hi'
          exact hi' hi
      · cases hspec
        exact hsame rfl
  | lookup parent name junk =>
      simp only [spec] at hspec
      split at hspec
      · split at hspec <;> cases hspec <;> exact hsame rfl
      · cases hspec
        exact hsame rfl
  | read ino size off =>
      simp only [spec] at hspec
      split at hspec
      · split at hspec <;> cases hspec
        exact hsame rfl
      · cases hspec
        exact hsame rfl
  | write ino buf off =>
      simp only [spec] at hspec
      split at hspec
      · split at hspec <;> cases hspec
        · exact hsame rfl
        · exact hfile ino _ _ ‹_› rfl
      · cases hspec
        exact hsame rfl
  | setattr fileno stSize =>
      simp only [spec] at hspec
      split at hspec <;> cases hspec
      · exact hfile fileno _ _ ‹_› rfl
      · exact hsame rfl
  | getdata ino =>
      simp only [spec] at hspec
      split at hspec <;> cases hspec <;> exact hsame rfl

end Yfs.Fs
