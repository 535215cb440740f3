import Yfs.Fs.Stores

/-!
# The text of a directory stays well formed

`unlink` searches the text of the directory for the name between two slashes, and may find the inode
number of another entry instead. It then cuts out the name before this number and the number, which
joins two halves of two entries. That is still a directory (`tokens_cut`), and one with fewer names. So
whatever is created and unlinked, the text is that of a list of entries with different names
(`directory_well_formed`).
-/

namespace Yfs.Fs

open Yfs.Lib
open Yfs.Rpc (Bytes)

/-- A name that the kernel may pass: not empty, without a slash and without a zero byte. -/
def ValidName (name : Bytes) : Prop := name ≠ [] ∧ slash ∉ name ∧ 0 ∉ name

instance (name : Bytes) : Decidable (ValidName name) :=
  inferInstanceAs (Decidable (name ≠ [] ∧ slash ∉ name ∧ 0 ∉ name))

/-- The text is a string of entries, and no name occurs twice. -/
def WellFormed (b : Bytes) : Prop :=
  ∃ es, b = content es ∧ (∀ e ∈ es, ValidName e.name) ∧ (names es).Nodup

section
variable {es : List Entry} {pre post : List Bytes} {a b name : Bytes}

/-! ## Two tokens less -/

theorem tokens_cons (e : Entry) (es : List Entry) :
    tokens (e :: es) = filename e.ino :: e.name :: tokens es := rfl

/-- Without two tokens that follow each other, the tokens of a directory are those of another one. -/
theorem tokens_cut (h : tokens es = pre ++ a :: b :: post) :
    ∃ es', tokens es' = pre ++ post ∧ (names es').Sublist (names es) := by
  induction es generalizing pre with
  | nil => simp [tokens] at h
  | cons e es ih =>
      rw [tokens_cons] at h
      cases pre with
      | nil =>
          simp only [List.nil_append, List.cons.injEq] at h
          exact ⟨es, h.2.2, List.sublist_cons_self ..⟩
      | cons t pre =>
          rw [List.cons_append, List.cons.injEq] at h
          obtain ⟨rfl, h⟩ := h
          cases pre with
          | nil =>
              rw [List.nil_append, List.cons.injEq] at h
              cases es with
              | nil => simp [tokens] at h
              | cons f es =>
                  -- the number of `e` and the name of `f` come together
                  rw [tokens_cons, List.cons.injEq] at h
                  refine ⟨⟨e.ino, f.name⟩ :: es, ?_, List.sublist_cons_self ..⟩
                  rw [tokens_cons, h.2.2]
                  rfl
          | cons u pre =>
              rw [List.cons_append, List.cons.injEq] at h
              obtain ⟨rfl, h⟩ := h
              obtain ⟨es', htokens, hnames⟩ := ih h
              refine ⟨e :: es', ?_, hnames.cons_cons e.name⟩
              rw [tokens_cons, htokens]
              rfl

/-! ## One call -/

theorem WellFormed.nil : WellFormed [] := ⟨[], rfl, by simp, by simp [names]⟩

/-- What `create` writes: a new name, since it would have been found. -/
theorem WellFormed.create (h : WellFormed b) (hname : ValidName name)
    (hfind : find (pattern name) b = none) (num : Inum) :
    WellFormed (b ++ (filename num ++ pattern name)) := by
  obtain ⟨es, rfl, hvalid, hnodup⟩ := h
  have hmem : name ∉ names es := by
    intro hmem
    have := find_content_isSome (fun e he => (hvalid e he).2.1) hmem
    rw [hfind] at this
    cases this
  refine ⟨es ++ [⟨num, name⟩], content_concat, ?_, ?_⟩
  · intro e he
    rcases List.mem_append.mp he with he | he
    · exact hvalid e he
    · rw [List.mem_singleton.mp he]
      exact hname
  · rw [names, List.map_append, List.nodup_append]
    refine ⟨hnodup, by simp, fun n hn n' hn' heq => hmem ?_⟩
    simp only [List.map_cons, List.map_nil, List.mem_singleton] at hn'
    rwa [← hn', ← heq]

/-- What `unlink` writes into a directory with the text `b`, if the pattern is at `found`. -/
def unlinked (name b : Bytes) (found : Nat) : Bytes :=
  let left := leftOf b found
  let stop := found + (pattern name).length
  (if left ≠ 0 then substr b 0 left else []) ++
    (if stop < b.length then substr b stop (b.length - stop) else [])

/-- It is well formed whatever token was found. -/
theorem WellFormed.unlink (h : WellFormed b) (hname : ValidName name) {found : Nat}
    (hfind : find (pattern name) b = some found) : WellFormed (unlinked name b found) := by
  obtain ⟨es, rfl, hvalid, hnodup⟩ := h
  have hslash := slash_not_mem_tokens fun e he => (hvalid e he).2.1
  obtain ⟨pre, a, post, htokens, rfl⟩ := find_joinSep_some hname.2.1 hslash hfind
  obtain ⟨es', hcut, hnames⟩ := tokens_cut htokens
  have ha : slash ∉ a := hslash a (by simp [htokens])
  have hne : a ≠ [] := by
    intro hnil
    have hmem : a ∈ tokens es := by simp [htokens]
    simp only [tokens, List.mem_flatMap, List.mem_cons, List.not_mem_nil, or_false] at hmem
    obtain ⟨e, he, heq | heq⟩ := hmem
    · exact filename_ne_nil e.ino (heq ▸ hnil)
    · exact (hvalid e he).1 (heq ▸ hnil)
  have hleft : leftOf (content es) ((joinSep slash pre).length + a.length) =
      (joinSep slash pre).length := by
    have hpos := List.length_pos_iff.mpr hne
    rw [content, htokens, joinSep_append, joinSep_cons]
    refine rfind_joinSep ha _ ?_
    unfold before
    rw [if_neg (by omega)]
    omega
  have htext := text_cut pre post a name
  rw [← htokens, ← hcut] at htext
  refine ⟨es', ?_, ?_, hnodup.sublist hnames⟩
  · unfold unlinked
    rw [hleft]
    exact htext
  · intro e he
    obtain ⟨e', he', heq⟩ := List.mem_map.mp (hnames.subset (List.mem_map.mpr ⟨e, he, rfl⟩))
    rw [← heq]
    exact hvalid e' he'

end

section
variable {σ : Type} {E : ExtentOps σ} {parent junk : Inum} {text : σ → Option Bytes} {s s' : σ}
  {name : Bytes}

/-- A call leaves the text of the directory, or writes a well-formed one. -/
def StaysFormed (text : σ → Option Bytes) (s s' : σ) : Prop :=
  ∀ b, text s = some b → WellFormed b → ∃ b', text s' = some b' ∧ WellFormed b'

theorem StaysFormed.of_eq (h : text s' = text s) : StaysFormed text s s' := by
  intro b hb hwf
  exact ⟨b, h.trans hb, hwf⟩

/-- The text of the directory is written, if the call does not fail. -/
theorem StaysFormed.put (hE : E.KeepsText parent text) {s₂ : σ} (h₂ : text s₂ = text s) {d : Bytes}
    (hd : ∀ b, text s = some b → WellFormed b → WellFormed d) :
    StaysFormed text s (E.put s₂ parent d).2 := by
  intro b hb hwf
  rcases hE.put s₂ d with h | h
  · exact ⟨d, h, hd b hb hwf⟩
  · exact ⟨b, h.trans (h₂.trans hb), hwf⟩

/-- What a call of `create` does to the store. -/
theorem create_cases {isfile : Bool} {rand : UInt32} {st : Status} {ino : Option Inum}
    (hcall : create E parent name isfile rand s = some (s', st, ino)) :
    s' = s ∨ s' = (E.get s parent).2.2 ∨
    ∃ num, num ≠ parent ∧ (E.get s parent).1 = .ok ∧ find (pattern name) (E.get s parent).2.1 = none ∧
      (s' = (E.put (E.get s parent).2.2 num []).2 ∨
        s' = (E.put (E.put (E.get s parent).2.2 num []).2 parent
          ((E.get s parent).2.1 ++ (filename num ++ pattern name))).2) := by
  obtain ⟨rs, b, s₁, hget⟩ : ∃ rs b s₁, E.get s parent = (rs, b, s₁) := ⟨_, _, _, rfl⟩
  obtain ⟨num, hnum⟩ : ∃ num, num = randInum isfile rand := ⟨_, rfl⟩
  obtain ⟨rs₂, s₂, hnew⟩ : ∃ rs₂ s₂, E.put s₁ num [] = (rs₂, s₂) := ⟨_, _, rfl⟩
  obtain ⟨rs₃, s₃, hput⟩ : ∃ rs₃ s₃, E.put s₂ parent (b ++ (filename num ++ pattern name)) =
    (rs₃, s₃) := ⟨_, _, rfl⟩
  simp only [create, hget, ← hnum, hnew, hput] at hcall ⊢
  by_cases hdir : isdir parent = true
  · rw [if_pos hdir] at hcall
    right
    by_cases hrs : rs = .ok
    · rw [if_neg (not_not.mpr hrs)] at hcall
      by_cases hfind : find (pattern name) b = none
      · rw [if_neg (by simp [hfind])] at hcall
        by_cases hne : num = parent
        · rw [if_pos hne] at hcall
          cases hcall
        · rw [if_neg hne] at hcall
          refine .inr ⟨num, hne, hrs, hfind, ?_⟩
          rw [hnew, hput]
          split at hcall
          · cases hcall
            exact .inl rfl
          · split at hcall <;> cases hcall <;> exact .inr rfl
      · rw [if_pos (Option.isSome_iff_ne_none.mpr hfind)] at hcall
        cases hcall
        exact .inl rfl
    · rw [if_pos hrs] at hcall
      cases hcall
      exact .inl rfl
  · rw [if_neg hdir] at hcall
    cases hcall
    exact .inl rfl

theorem create_keeps (hE : E.KeepsText parent text) {isfile : Bool} {rand : UInt32} {st : Status}
    {ino : Option Inum} (hname : ValidName name)
    (hcall : create E parent name isfile rand s = some (s', st, ino)) : StaysFormed text s s' := by
  have hget := hE.get s
  obtain rfl | rfl | ⟨num, hne, hok, hfind, hs'⟩ := create_cases hcall
  · exact .of_eq rfl
  · exact .of_eq hget
  · have hnum := (hE.put_other (E.get s parent).2.2 num [] hne).trans hget
    obtain rfl | rfl := hs'
    · exact .of_eq hnum
    · apply StaysFormed.put hE hnum
      intro b hb hwf
      rw [hE.got s hok] at hb
      cases hb
      exact hwf.create hname hfind num

/-- What a call of `unlink` does to the store. -/
theorem unlink_cases {st : Status} (hcall : unlink E parent name junk s = some (s', st)) :
    s' = s ∨ s' = (E.get s parent).2.2 ∨
    ∃ found ino, ino ≠ parent ∧ (E.get s parent).1 = .ok ∧
      find (pattern name) (E.get s parent).2.1 = some found ∧
      (s' = (E.remove (E.get s parent).2.2 ino).2 ∨
        s' = (E.put (E.remove (E.get s parent).2.2 ino).2 parent
          (unlinked name (E.get s parent).2.1 found)).2) := by
  obtain ⟨rs, b, s₁, hget⟩ : ∃ rs b s₁, E.get s parent = (rs, b, s₁) := ⟨_, _, _, rfl⟩
  simp only [unlink, hget] at hcall ⊢
  by_cases hdir : isdir parent = true
  · rw [if_pos hdir] at hcall
    right
    by_cases hrs : rs = .ok
    · rw [if_neg (not_not.mpr hrs)] at hcall
      cases hfind : find (pattern name) b with
      | none =>
          rw [hfind] at hcall
          cases hcall
          exact .inl rfl
      | some found =>
          simp only [hfind] at hcall
          split at hcall
          · cases hcall
          · generalize n2i _ _ = ino at hcall
            obtain ⟨rs₂, s₂, hremove⟩ : ∃ rs₂ s₂, E.remove s₁ ino = (rs₂, s₂) := ⟨_, _, rfl⟩
            obtain ⟨rs₃, s₃, hput⟩ : ∃ rs₃ s₃, E.put s₂ parent (unlinked name b found) = (rs₃, s₃) :=
              ⟨_, _, rfl⟩
            by_cases hne : ino = parent
            · rw [if_pos hne] at hcall
              cases hcall
            · rw [if_neg hne] at hcall
              refine .inr ⟨found, ino, hne, hrs, rfl, ?_⟩
              rw [hremove, hput]
              unfold unlinked at hput
              simp only [hremove, hput] at hcall
              split at hcall
              · cases hcall
                exact .inl rfl
              · split at hcall <;> cases hcall <;> exact .inr rfl
    · rw [if_pos hrs] at hcall
      cases hcall
      exact .inl rfl
  · rw [if_neg hdir] at hcall
    cases hcall
    exact .inl rfl

theorem unlink_keeps (hE : E.KeepsText parent text) {st : Status} (hname : ValidName name)
    (hcall : unlink E parent name junk s = some (s', st)) : StaysFormed text s s' := by
  have hget := hE.get s
  obtain rfl | rfl | ⟨found, ino, hne, hok, hfind, hs'⟩ := unlink_cases hcall
  · exact .of_eq rfl
  · exact .of_eq hget
  · have hremove := (hE.remove_other (E.get s parent).2.2 ino hne).trans hget
    obtain rfl | rfl := hs'
    · exact .of_eq hremove
    · apply StaysFormed.put hE hremove
      intro b hb hwf
      rw [hE.got s hok] at hb
      cases hb
      exact hwf.unlink hname hfind

theorem lookup_keeps (hE : E.KeepsText parent text) {ret : Bool} {ino : Option Inum}
    (hcall : lookup E parent name junk s = some (s', ret, ino)) : StaysFormed text s s' := by
  unfold lookup at hcall
  obtain ⟨rs, b, s₁, hget⟩ : ∃ rs b s₁, E.get s parent = (rs, b, s₁) := ⟨_, _, _, rfl⟩
  have h₁ : text s₁ = text s := by simpa [hget] using hE.get s
  simp only [hget] at hcall
  have hs' : s' = s ∨ s' = s₁ := by
    split at hcall
    · split at hcall
      · cases hcall
        exact .inl rfl
      · split at hcall
        · cases hcall
          exact .inr rfl
        · split at hcall
          · cases hcall
            exact .inr rfl
          · split at hcall
            · cases hcall
            · cases hcall
              exact .inr rfl
    · cases hcall
      exact .inl rfl
  rcases hs' with rfl | rfl
  · exact .of_eq rfl
  · exact .of_eq h₁

/-! ## Every run -/

theorem run_keeps (hE : E.KeepsText parent text) {ops : List DirOp} {rs : List Response}
    (hnames : ∀ op ∈ ops, ValidName op.name) (hrun : run E parent s ops = some (s', rs)) :
    StaysFormed text s s' := by
  induction ops generalizing s rs with
  | nil =>
      cases hrun
      exact .of_eq rfl
  | cons op ops ih =>
      simp only [run, Option.bind_eq_bind, Option.bind_eq_some_iff] at hrun
      obtain ⟨⟨s₁, r⟩, hstep, ⟨s₂, rs₂⟩, hrest, heq⟩ := hrun
      cases heq
      have hname := hnames op (by simp)
      have hfirst : StaysFormed text s s₁ := by
        cases op with
        | create name isfile rand =>
            obtain ⟨⟨s', st, ino⟩, hcall, heq⟩ := Option.map_eq_some_iff.mp hstep
            cases heq
            exact create_keeps hE hname hcall
        | lookup name junk =>
            obtain ⟨⟨s', ret, ino⟩, hcall, heq⟩ := Option.map_eq_some_iff.mp hstep
            cases heq
            exact lookup_keeps hE hcall
        | unlink name junk =>
            obtain ⟨⟨s', st⟩, hcall, heq⟩ := Option.map_eq_some_iff.mp hstep
            cases heq
            exact unlink_keeps hE hname hcall
      intro b hb hwf
      obtain ⟨b₁, hb₁, hwf₁⟩ := hfirst b hb hwf
      exact ih (fun op' hop' => hnames op' (by simp [hop'])) hrest b₁ hb₁ hwf₁

/-- After every sequence of calls on a directory that was empty at first, the text of the directory is
a string of entries in which no name occurs twice. -/
theorem directory_well_formed (hE : E.KeepsText parent text) (hempty : text s = some [])
    {ops : List DirOp} {rs : List Response} (hnames : ∀ op ∈ ops, ValidName op.name)
    (hrun : run E parent s ops = some (s', rs)) : ∃ b, text s' = some b ∧ WellFormed b :=
  run_keeps hE hnames hrun [] hempty .nil

end

/-- In a directory with "a" for inode 5 and "b" for inode 7, the name "7" is unlinked: what is left is
"b" for inode 5. -/
theorem directory_well_formed_number :
    ∃ s' rs, run mapOps 1 (fun _ => some []) [.create [97] false 5, .create [98] false 7,
        .unlink [55] 0] = some (s', rs) ∧ s' 1 = some (content [⟨5, [98]⟩]) ∧
      ∃ b, s' 1 = some b ∧ WellFormed b := by
  have htext : ((run mapOps 1 (fun _ => some []) [.create [97] false 5, .create [98] false 7,
      .unlink [55] 0]).map fun r => r.1 1) = some (some (content [⟨5, [98]⟩])) := by
    decide +kernel
  obtain ⟨⟨s', rs⟩, hrun, hs'⟩ := Option.map_eq_some_iff.mp htext
  have hnames : ∀ op ∈ [.create [97] false 5, .create [98] false 7, .unlink [55] 0],
      ValidName (DirOp.name op) := by
    decide
  have hwf := directory_well_formed (mapOps_keeps 1) rfl hnames hrun
  exact ⟨s', rs, hrun, hs', hwf⟩

end Yfs.Fs
