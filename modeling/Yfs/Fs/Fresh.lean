import Yfs.Fs.Stores

/-!
# New inode numbers

`create` takes what `rand_inum` gives as the inode number of the new file or directory, and does not
look whether it is in use. So what it should guarantee (`CreatesFresh`) holds exactly if chance has it
that no extent has this number (`create_fresh_iff`): otherwise the extent is emptied, or, if the number
is that of the directory itself, the thread waits for a lock that it holds.
-/

namespace Yfs.Fs

open Yfs.Lib
open Yfs.Rpc (Bytes)

variable {σ : Type} (E : ExtentOps σ) (parent : Inum) (name : Bytes) (isfile : Bool) (rand : UInt32)
  (s : σ)

/-- The directory is there and the name is not in it, so that a number is drawn. -/
def Draws : Prop :=
  isdir parent = true ∧ (E.get s parent).1 = .ok ∧ find (pattern name) (E.get s parent).2.1 = none

/-- The locks that `create` acquires, in this order. It keeps each of them until it returns. -/
def createLocks : List Inum :=
  if isdir parent then
    let (rs, b, _) := E.get s parent
    if rs ≠ .ok ∨ (find (pattern name) b).isSome then [parent] else [parent, randInum isfile rand]
  else []

/-- If `create` returns OK, then there was no extent with the new inode number, and no extent but the
new one and the directory's has changed; and `create` does not acquire a lock that it has. -/
def CreatesFresh (view : σ → Inum → Option Bytes) : Prop :=
  (∀ s' ino, create E parent name isfile rand s = some (s', .ok, ino) →
    ∃ num, ino = some num ∧ view s num = none ∧
      ∀ i, i ≠ parent → i ≠ num → view s' i = view s i) ∧
  (createLocks E parent name isfile rand s).Nodup

variable {E parent name isfile rand s} {view : σ → Inum → Option Bytes}

/-! ## What `create` does -/

theorem createLocks_draws (h : Draws E parent name s) :
    createLocks E parent name isfile rand s = [parent, randInum isfile rand] := by
  obtain ⟨hdir, hget, hfind⟩ := h
  simp [createLocks, hdir, hget, hfind]

/-- Without a number there is nothing to go wrong. -/
theorem create_not_draws (h : ¬ Draws E parent name s) (isfile : Bool) (rand : UInt32) :
    (∃ s' st, create E parent name isfile rand s = some (s', st, none) ∧ st ≠ .ok) ∧
      (createLocks E parent name isfile rand s).Nodup := by
  unfold create createLocks
  by_cases hdir : isdir parent = true
  · obtain ⟨rs, b, s₁, hget⟩ : ∃ rs b s₁, E.get s parent = (rs, b, s₁) := ⟨_, _, _, rfl⟩
    by_cases hrs : rs = .ok
    · have hfind : (find (pattern name) b).isSome = true := by
        rw [Option.isSome_iff_ne_none]
        intro hnone
        exact h ⟨hdir, by simp [hget, hrs], by simp [hget, hnone]⟩
      exact ⟨⟨s₁, .exist, by simp [hdir, hget, hrs, hfind], by simp⟩, by simp [hdir, hget, hfind]⟩
    · refine ⟨⟨s₁, .ofExtent rs, by simp [hdir, hget, hrs], ?_⟩, by simp [hdir, hget, hrs]⟩
      cases rs <;> simp_all [Status.ofExtent]
  · exact ⟨⟨s, .noent, by simp [hdir], by simp⟩, by simp [hdir]⟩

/-- A number that is not the directory's own is taken, whatever has it. -/
theorem create_draws (hE : E.Frames view) (h : Draws E parent name s)
    (hne : randInum isfile rand ≠ parent) :
    ∃ s', create E parent name isfile rand s = some (s', .ok, some (randInum isfile rand)) ∧
      view s' = Function.update (Function.update (view s) (randInum isfile rand) (some [])) parent
        (some ((E.get s parent).2.1 ++ (filename (randInum isfile rand) ++ pattern name))) := by
  obtain ⟨hdir, hget, hfind⟩ := h
  obtain ⟨s₂, hput, hview⟩ := hE.put (E.get s parent).2.2 (randInum isfile rand) []
  obtain ⟨s₃, hput', hview'⟩ := hE.put s₂ parent
    ((E.get s parent).2.1 ++ (filename (randInum isfile rand) ++ pattern name))
  refine ⟨s₃, ?_, ?_⟩
  · simp [create, hdir, hget, hfind, hne, hput, hput', randInum_and]
  · rw [hview', hview, hE.get]

/-! ## When the number is new -/

/-- `create` does what it should if and only if, in case it draws a number, no extent has it and it is
not that of the directory. -/
theorem create_fresh_iff (hE : E.Frames view) :
    CreatesFresh E parent name isfile rand s view ↔
      (Draws E parent name s → randInum isfile rand ≠ parent ∧
        view s (randInum isfile rand) = none) := by
  constructor
  · rintro ⟨hfresh, hlocks⟩ hdraws
    rw [createLocks_draws hdraws] at hlocks
    have hne : randInum isfile rand ≠ parent := by
      intro heq
      simp [heq] at hlocks
    obtain ⟨s', hcreate, -⟩ := create_draws hE hdraws hne
    obtain ⟨num, hnum, hnone, -⟩ := hfresh s' _ hcreate
    cases hnum
    exact ⟨hne, hnone⟩
  · intro h
    by_cases hdraws : Draws E parent name s
    · obtain ⟨hne, hnone⟩ := h hdraws
      obtain ⟨s', hcreate, hview⟩ := create_draws hE hdraws hne
      constructor
      · intro s'' ino hcreate'
        rw [hcreate] at hcreate'
        cases hcreate'
        refine ⟨_, rfl, hnone, fun i hparent hnum => ?_⟩
        rw [hview, Function.update_of_ne hparent, Function.update_of_ne hnum]
      · rw [createLocks_draws hdraws]
        simpa using Ne.symm hne
    · obtain ⟨⟨s', st, hcreate, hst⟩, hlocks⟩ := create_not_draws hdraws isfile rand
      refine ⟨fun s'' ino hcreate' => ?_, hlocks⟩
      rw [hcreate] at hcreate'
      cases hcreate'
      exact absurd rfl hst

/-- The first file in a directory. -/
theorem create_fresh_first :
    CreatesFresh mapOps 1 [97] true 5 (Function.update (fun _ => none) 1 (some [])) id := by
  apply (create_fresh_iff mapOps_frames).mpr
  intro _
  decide

/-- A directory, and a file with three bytes. -/
def threeBytes : Inum → Option Bytes :=
  Function.update (Function.update (fun _ => none) 1 (some [])) 0x80000005 (some [1, 2, 3])

/-- The inode number of a file is drawn again: `create` returns OK, and the file is empty. The inode
number of the directory is drawn for a new directory in it: its lock is acquired twice, and `create`
does not return. -/
theorem create_taken :
    threeBytes 0x80000005 = some [1, 2, 3] ∧
    ((create mapOps 1 [98] true 5 threeBytes).map fun r => (r.2.1, r.2.2, r.1 0x80000005)) =
      some (.ok, some 0x80000005, some []) ∧
    createLocks mapOps 1 [98] false 1 threeBytes = [1, 1] ∧
    (create mapOps 1 [98] false 1 threeBytes).isNone = true := by
  decide +kernel

end Yfs.Fs
