import Mathlib.Data.List.TakeWhile
import Mathlib.Data.Nat.Digits.Lemmas
import Yfs.Fs.Client

/-!
# The text of a directory

`filename` and `n2i` convert inode numbers to text and back. A directory with the entries `es` has
the text `content es`, a string of tokens, and every other token is a name. `create`, `lookup` and
`unlink` search for any token, so they find the entry of a name only if no inode number that reads
like the name comes first (`Clear`).
-/

namespace Yfs.Fs

open Yfs.Lib
open Yfs.Rpc (Bytes)

/-! ## Inode numbers as text -/

theorem isDigit_digit {d : Nat} (h : d < 10) : isDigit (UInt8.ofNat (48 + d)) = true := by
  have : ∀ d < 10, isDigit (UInt8.ofNat (48 + d)) = true := by decide
  exact this d h

theorem isSpace_of_isDigit {b : UInt8} (h : isDigit b = true) : isSpace b = false := by
  simp only [isDigit, Bool.and_eq_true, decide_eq_true_eq, UInt8.le_iff_toNat_le,
    UInt8.reduceToNat] at h
  have hne : b ≠ 32 := by
    rintro rfl
    simp at h
  simp only [isSpace, hne, decide_false, Bool.false_or, Bool.and_eq_false_iff,
    decide_eq_false_iff_not, UInt8.le_iff_toNat_le, UInt8.reduceToNat]
  omega

theorem digits_filename {i : Inum} {b : UInt8} (h : b ∈ filename i) : isDigit b = true := by
  unfold filename at h
  split at h
  · simp at h
    subst h
    rfl
  · obtain ⟨d, hd, rfl⟩ := List.mem_map.mp h
    exact isDigit_digit (Nat.digits_lt_base (by omega) (List.mem_reverse.mp hd))

theorem filename_ne_nil (i : Inum) : filename i ≠ [] := by
  unfold filename
  split
  · simp
  · rename_i h
    have : i.toNat ≠ 0 := fun h' => h (UInt64.toNat_inj.mp h')
    simpa [Nat.digits_eq_nil_iff_eq_zero] using this

theorem slash_not_mem_filename (i : Inum) : slash ∉ filename i := fun h =>
  absurd (digits_filename h) (by decide)

theorem decimal_digits {l : List Nat} (h : ∀ d ∈ l, d < 10) :
    decimal (l.reverse.map fun d => UInt8.ofNat (48 + d)) = Nat.ofDigits 10 l := by
  induction l with
  | nil => rfl
  | cons d l ih =>
      have hd : d < 10 := h d (by simp)
      rw [Nat.ofDigits_cons, ← ih fun d' hd' => h d' (by simp [hd'])]
      simp [decimal]
      omega

theorem decimal_filename (i : Inum) : decimal (filename i) = i.toNat := by
  unfold filename
  split
  · rename_i h
    subst h
    rfl
  · rw [decimal_digits fun d hd => Nat.digits_lt_base (by omega) hd, Nat.ofDigits_digits]

/-- The two conversions of inode numbers are inverse. -/
theorem n2i_filename (junk i : Inum) : n2i junk (filename i) = i := by
  obtain ⟨b, l, hl⟩ := List.exists_cons_of_ne_nil (filename_ne_nil i)
  have hb : isDigit b = true := digits_filename (i := i) (by simp [hl])
  have hspace : isSpace b = false := isSpace_of_isDigit hb
  have hdigits : (filename i).takeWhile isDigit = filename i :=
    List.takeWhile_eq_self_iff.mpr fun b hb => digits_filename hb
  have hdrop : (filename i).dropWhile isSpace = filename i := by simp [hl, hspace]
  have hsign : b ≠ 45 ∧ b ≠ 43 := by
    constructor <;> rintro rfl <;> exact absurd hb (by decide)
  have hlt := i.toNat_lt
  unfold n2i
  simp only [hdrop]
  simp only [hl, reduceCtorEq, List.head?_cons, Option.some.injEq, hsign, or_self, if_false]
  rw [← hl, hdigits, decimal_filename, if_neg (by omega), UInt64.ofNat_toNat]

/-! ## New inode numbers -/

theorem randInum_and (isfile : Bool) (rand : UInt32) :
    randInum isfile rand &&& 0xffffffff = randInum isfile rand := by
  apply UInt64.toNat_inj.mp
  have hlt : (randInum isfile rand).toNat < 2 ^ 32 := by
    rw [randInum, UInt32.toNat_toUInt64]
    exact UInt32.toNat_lt _
  rw [UInt64.toNat_and, show (0xffffffff : UInt64).toNat = 2 ^ 32 - 1 from rfl,
    Nat.and_two_pow_sub_one_eq_mod, Nat.mod_eq_of_lt hlt]

/-- A new file has the bit of a file. -/
theorem isfile_randInum (rand : UInt32) : isfile (randInum true rand) = true := by
  simp only [isfile, decide_eq_true_eq]
  intro h
  have hbit := congrArg (fun v : UInt64 => v.toNat.testBit 31) h
  have h31 : Nat.testBit 0x80000000 31 = true := by decide
  simp [randInum, Nat.testBit_or, Nat.testBit_and, h31] at hbit

theorem randInum_ne {parent : Inum} (h : isdir parent = true) (rand : UInt32) :
    randInum true rand ≠ parent := by
  rintro rfl
  simp [isdir, isfile_randInum] at h

/-! ## The text of a directory -/

structure Entry where
  ino : Inum
  name : Bytes
  deriving DecidableEq, Repr

/-- The tokens of a directory with the given entries. -/
def tokens (es : List Entry) : List Bytes := es.flatMap fun e => [filename e.ino, e.name]

/-- The text of a directory with the given entries. -/
def content (es : List Entry) : Bytes := joinSep slash (tokens es)

def names (es : List Entry) : List Bytes := es.map Entry.name

/-- No inode number that comes before an entry called `name` reads like it. -/
def ClearTail (name : Bytes) : List Entry → Prop
  | [] => True
  | e :: es => filename e.ino ≠ name ∧ (e.name = name ∨ ClearTail name es)

/-- The same, but the inode number at the very beginning may read as it likes: no slash comes before
it. -/
def Clear (name : Bytes) : List Entry → Prop
  | [] => True
  | e :: es => e.name = name ∨ ClearTail name es

instance decidableClearTail (name : Bytes) : (es : List Entry) → Decidable (ClearTail name es)
  | [] => inferInstanceAs (Decidable True)
  | e :: es =>
      have := decidableClearTail name es
      inferInstanceAs (Decidable (filename e.ino ≠ name ∧ (e.name = name ∨ ClearTail name es)))

instance decidableClear (name : Bytes) : (es : List Entry) → Decidable (Clear name es)
  | [] => inferInstanceAs (Decidable True)
  | e :: es => inferInstanceAs (Decidable (e.name = name ∨ ClearTail name es))

variable {es pre post : List Entry} {e : Entry} {name : Bytes}

theorem content_split : content (pre ++ e :: post) =
    content pre ++ (filename e.ino ++ (pattern e.name ++ content post)) := by
  simp [content, tokens, pattern]

/-- What `create` appends is one entry. -/
theorem content_concat {num : Inum} :
    content es ++ (filename num ++ pattern name) = content (es ++ [⟨num, name⟩]) := by
  rw [content_split]
  simp [content, tokens]

theorem slash_not_mem_tokens (hes : ∀ e ∈ es, slash ∉ e.name) : ∀ t ∈ tokens es, slash ∉ t := by
  intro t ht
  simp only [tokens, List.mem_flatMap, List.mem_cons, List.not_mem_nil, or_false] at ht
  obtain ⟨e, he, rfl | rfl⟩ := ht
  · exact slash_not_mem_filename e.ino
  · exact hes e he

/-- The entries can be read back from the text. -/
theorem content_inj {fs : List Entry} (hes : ∀ e ∈ es, slash ∉ e.name)
    (hfs : ∀ e ∈ fs, slash ∉ e.name) (h : content es = content fs) : es = fs := by
  have htokens : tokens es = tokens fs :=
    joinSep_inj (slash_not_mem_tokens hes) (slash_not_mem_tokens hfs) h
  clear hes hfs h
  induction es generalizing fs with
  | nil => cases fs <;> simp_all [tokens]
  | cons e es ih =>
      cases fs with
      | nil => simp [tokens] at htokens
      | cons f fs =>
          simp only [tokens, List.flatMap_cons, List.cons_append, List.nil_append,
            List.cons.injEq] at htokens
          obtain ⟨hino, hname, htail⟩ := htokens
          have hino : e.ino = f.ino := by rw [← n2i_filename 0 e.ino, hino, n2i_filename]
          rw [ih htail, show e = f from by cases e; cases f; simp_all]

/-- Up to an entry called `name` no token reads like `name`. -/
theorem ClearTail.not_mem (h : ClearTail name (pre ++ post)) (hpre : name ∉ names pre) :
    name ∉ tokens pre ∧ ClearTail name post := by
  induction pre with
  | nil => exact ⟨by simp [tokens], h⟩
  | cons e pre ih =>
      simp only [names, List.map_cons, List.mem_cons, not_or] at hpre
      obtain ⟨hino, hrest⟩ := h
      obtain ⟨htokens, hpost⟩ := ih (hrest.resolve_left (Ne.symm hpre.1)) hpre.2
      exact ⟨by simp [tokens, Ne.symm hino, hpre.1] at htokens ⊢; exact htokens, hpost⟩

/-- A name that is not in the directory is not found. -/
theorem find_content_none (hname : slash ∉ name) (hes : ∀ e ∈ es, slash ∉ e.name)
    (hclear : Clear name es) (h : name ∉ names es) : find (pattern name) (content es) = none := by
  cases es with
  | nil => simp [content, tokens, pattern, find]
  | cons e es =>
      simp only [names, List.map_cons, List.mem_cons, not_or] at h
      have htail : ClearTail name (es ++ []) := by
        simpa using hclear.resolve_left (Ne.symm h.1)
      have hno := (htail.not_mem h.2).1
      have hslash := slash_not_mem_tokens fun e' he' => hes e' (List.mem_cons_of_mem e he')
      have hall : ∀ t ∈ e.name :: tokens es, slash ∉ t := by
        simpa using ⟨hes e (by simp), hslash⟩
      have hnot : name ∉ e.name :: tokens es := by
        simpa using ⟨h.1, hno⟩
      rw [pattern, content, tokens, List.flatMap_cons]
      exact find_joinSep_none hname (slash_not_mem_filename _) hall hnot

/-- A name that is in the directory is found, at some token. -/
theorem find_content_isSome (hes : ∀ e ∈ es, slash ∉ e.name) (h : name ∈ names es) :
    (find (pattern name) (content es)).isSome = true := by
  cases es with
  | nil => simp [names] at h
  | cons e es =>
      have hslash := slash_not_mem_tokens fun e' he' => hes e' (List.mem_cons_of_mem e he')
      have hmem : name ∈ e.name :: tokens es := by
        simp only [names, List.map_cons, List.mem_cons, List.mem_map] at h
        rcases h with rfl | ⟨e', he', rfl⟩
        · simp
        · exact List.mem_cons_of_mem _ (List.mem_flatMap.mpr ⟨e', he', by simp⟩)
      have hall : ∀ t ∈ e.name :: tokens es, slash ∉ t := by
        simpa using ⟨hes e (by simp), hslash⟩
      -- the first token that reads like the name, be it a name or an inode number
      obtain ⟨pre, post, hsplit, hno⟩ := List.eq_append_cons_of_mem hmem
      have hfind := find_joinSep (hall name hmem) (slash_not_mem_filename e.ino)
        (fun t ht => hall t (by simp [hsplit, ht])) hno post
      rw [← hsplit] at hfind
      rw [pattern, content, tokens, List.flatMap_cons]
      exact Option.isSome_of_eq_some hfind

/-- A name that is in a clear directory is found, at the end of its inode number. -/
theorem find_content (hes : ∀ e' ∈ pre ++ e :: post, slash ∉ e'.name)
    (hclear : Clear e.name (pre ++ e :: post)) (h : e.name ∉ names pre) :
    find (pattern e.name) (content (pre ++ e :: post)) =
      some ((content pre).length + (filename e.ino).length) := by
  have hname : slash ∉ e.name := hes e (by simp)
  cases pre with
  | nil =>
      have hnil : ∀ t ∈ ([] : List Bytes), slash ∉ t := by simp
      have hfind := find_joinSep hname (slash_not_mem_filename e.ino) hnil (by simp) (tokens post)
      simpa [content, tokens, pattern] using hfind
  | cons e₀ pre =>
      simp only [names, List.map_cons, List.mem_cons, not_or] at h
      obtain ⟨hno, hino, -⟩ := (hclear.resolve_left (Ne.symm h.1)).not_mem h.2
      have hslash : ∀ t ∈ tokens pre, slash ∉ t :=
        slash_not_mem_tokens fun e' he' => hes e' (by simp [he'])
      -- the tokens between the first inode number and the name
      have hall : ∀ t ∈ e₀.name :: (tokens pre ++ [filename e.ino]), slash ∉ t := by
        simpa [or_imp, forall_and] using ⟨hes e₀ (by simp), hslash, slash_not_mem_filename _⟩
      have hfind := find_joinSep hname (slash_not_mem_filename e₀.ino) hall
        (by simpa using ⟨h.1, hno, Ne.symm hino⟩) (tokens post)
      rw [pattern, content_split]
      simp [content, tokens, pattern] at hfind ⊢
      rw [hfind]
      congr 1
      omega

/-- The inode number of an entry starts where the text of the entries before it ends. -/
theorem leftOf_content (l : Bytes) :
    leftOf (content pre ++ (filename e.ino ++ l)) ((content pre).length + (filename e.ino).length) =
      (content pre).length := by
  have hpos := List.length_pos_iff.mpr (filename_ne_nil e.ino)
  refine rfind_joinSep (slash_not_mem_filename _) l ?_
  unfold before
  rw [if_neg (by omega)]
  simp only [content]
  omega

/-- What `unlink` leaves of the text when it has found `name` after the token `a`. -/
theorem text_cut (pre post : List Bytes) (a name : Bytes) :
    let b := joinSep slash (pre ++ a :: name :: post)
    let left := (joinSep slash pre).length
    let stop := left + a.length + (pattern name).length
    (if left ≠ 0 then substr b 0 left else []) ++
      (if stop < b.length then substr b stop (b.length - stop) else []) =
        joinSep slash (pre ++ post) := by
  have hb : joinSep slash (pre ++ a :: name :: post) =
      joinSep slash pre ++ a ++ pattern name ++ joinSep slash post := by
    simp [pattern]
  intro b left stop
  have hfront : (if left ≠ 0 then substr b 0 left else []) = joinSep slash pre := by
    split
    · simp [b, left, substr]
    · rename_i h
      exact (List.length_eq_zero_iff.mp (not_not.mp h)).symm
  have hdrop : b.drop stop = joinSep slash post := by
    simp only [b, hb]
    rw [List.drop_left']
    simp [stop, left, Nat.add_assoc]
  have hback : (if stop < b.length then substr b stop (b.length - stop) else []) =
      joinSep slash post := by
    rw [← hdrop]
    split
    · rw [substr, ← List.length_drop, List.take_length]
    · exact (List.drop_of_length_le (by omega)).symm
  rw [hfront, hback, joinSep_append]

end Yfs.Fs
