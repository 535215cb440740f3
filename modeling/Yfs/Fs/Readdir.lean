import Yfs.Fs.Layout
import Yfs.Lib.Blocks
import Yfs.Lib.Word

/-!
# Reading a directory

`fuseserver_readdir` takes the text of the directory apart into entries, makes a directory entry of
libfuse of each, and replies with as much of their concatenation as the kernel has asked for, from an
offset that the kernel has found in an earlier reply.

The scan of the text gives back the entries that `create` has put there, and comes to an end on any
text (`scan_decodes`). Reading page after page gives every entry once (`listing_complete`).
-/

namespace Yfs.Fs

open Yfs.Lib
open Yfs.Rpc (Bytes)

/-! ## The scan -/

/-- `pos + 1` in a `size_t`, where `npos` is the largest number. -/
def afterPos : Option Nat → Nat
  | none => 0
  | some pos => pos + 1

/-- `std::string::substr`; `none` is `std::out_of_range`. -/
def substr? (s : Bytes) (pos n : Nat) : Option Bytes :=
  if pos ≤ s.length then some (substr s pos n) else none

/-- `name.c_str()`, read as a string that ends with a zero byte. -/
def cStr (name : Bytes) : Bytes := name.takeWhile (· ≠ 0)

/-- The loop in `fuseserver_readdir` from `left` on: the entries for which it calls `dirbuf_add`. It is
`none` if a `substr` throws, or if the loop is not over after `fuel` rounds. In the round at `left` the
number that `n2i` does not initialise holds `junk left`. -/
def scan (junk : Nat → Inum) (buf : Bytes) : (fuel left : Nat) → Option (List Entry)
  | 0, _ => none
  | fuel + 1, left =>
      let mid := findFirstOf slash buf left
      let stop := findFirstOf slash buf (afterPos mid)
      match mid, stop with
      | some mid, some stop => do
          let ino ← substr? buf left (mid - left)
          let name ← substr? buf (mid + 1) (stop - mid - 1)
          let es ← scan junk buf fuel (stop + 1)
          return ⟨n2i (junk left) ino, cStr name⟩ :: es
      | _, _ => some []

section
variable {junk : Nat → Inum} {buf name : Bytes} {fuel left : Nat} {es : List Entry} {e : Entry}

theorem cStr_eq_self (h : 0 ∉ name) : cStr name = name := by
  apply List.takeWhile_eq_self_iff.mpr
  intro b hb
  simp only [decide_eq_true_eq]
  rintro rfl
  exact h hb

theorem substr?_token {pos n : Nat} {t r : Bytes} (hpos : pos ≤ buf.length)
    (hbuf : buf.drop pos = t ++ r) (hn : n = t.length) : substr? buf pos n = some t := by
  rw [substr?, if_pos hpos, substr, hbuf, hn, List.take_left]

/-- One round at the start of an entry. -/
theorem scan_entry (fuel : Nat) (hslash : slash ∉ e.name) (hzero : 0 ∉ e.name)
    (hbuf : buf.drop left = content (e :: es)) :
    ∃ next, buf.drop next = content es ∧
      scan junk buf (fuel + 1) left = (scan junk buf fuel next).map (e :: ·) := by
  have htext : buf.drop left = filename e.ino ++ slash :: (e.name ++ slash :: content es) := by
    rw [hbuf]
    simp [content, tokens]
  have hmid := findFirstOf_token (slash_not_mem_filename e.ino) htext
  obtain ⟨hle, hlt⟩ := findFirstOf_lt hmid
  obtain ⟨mid, hmideq⟩ : ∃ mid, mid = left + (filename e.ino).length := ⟨_, rfl⟩
  rw [← hmideq] at hmid hle hlt
  have hrest : buf.drop (mid + 1) = e.name ++ slash :: content es := by
    rw [hmideq, Nat.add_assoc, ← List.drop_drop, htext, List.drop_append]
    simp
  have hstop := findFirstOf_token hslash hrest
  have hnext : buf.drop (mid + 1 + e.name.length + 1) = content es := by
    rw [Nat.add_assoc, ← List.drop_drop, hrest, List.drop_append]
    simp
  refine ⟨_, hnext, ?_⟩
  have hino := substr?_token (n := mid - left) (by omega) htext (by omega)
  have hname := substr?_token (n := mid + 1 + e.name.length - mid - 1) hlt hrest (by omega)
  simp only [scan, hmid, afterPos, hstop, hino, hname, n2i_filename, cStr_eq_self hzero,
    Option.bind_eq_bind, Option.bind_some, Option.pure_def]
  cases scan junk buf fuel (mid + 1 + e.name.length + 1) <;> rfl

/-- From the start of an entry on, the scan gives the entries that are there. -/
theorem scan_content (hes : ∀ e ∈ es, ValidName e.name) (hbuf : buf.drop left = content es)
    (hfuel : es.length < fuel) : scan junk buf fuel left = some es := by
  induction es generalizing fuel left with
  | nil =>
      cases fuel with
      | zero => exact absurd hfuel (Nat.not_lt_zero _)
      | succ fuel => simp [scan, findFirstOf_nil hbuf]
  | cons e es ih =>
      cases fuel with
      | zero => exact absurd hfuel (Nat.not_lt_zero _)
      | succ fuel =>
          obtain ⟨-, hslash, hzero⟩ := hes e (by simp)
          obtain ⟨next, hnext, hscan⟩ := scan_entry fuel hslash hzero hbuf
          rw [hscan, ih (fun e' he' => hes e' (by simp [he'])) hnext (Nat.lt_of_succ_lt_succ hfuel)]
          rfl

/-- On any text, every round starts later than the one before, and no `substr` throws. -/
theorem scan_total (hleft : left ≤ buf.length) (hfuel : buf.length - left < fuel) :
    ∃ es, scan junk buf fuel left = some es := by
  induction fuel generalizing left with
  | zero => exact absurd hfuel (Nat.not_lt_zero _)
  | succ fuel ih =>
      rw [scan]
      split
      · rename_i mid stop hmid hstop
        rw [hmid, afterPos] at hstop
        obtain ⟨hle, hlt⟩ := findFirstOf_lt hmid
        obtain ⟨hle', hlt'⟩ := findFirstOf_lt hstop
        have hnext : stop + 1 ≤ buf.length := hlt'
        obtain ⟨es, hes⟩ := ih hnext (by omega)
        simp [substr?, hleft, Nat.succ_le_of_lt hlt, hes]
      · exact ⟨[], rfl⟩

theorem length_le_content (es : List Entry) : es.length ≤ (content es).length := by
  induction es with
  | nil => exact Nat.zero_le _
  | cons e es ih =>
      simp only [content, tokens_cons, joinSep_cons, List.length_append, List.length_cons] at ih ⊢
      omega

end

/-- The scan of the text of a directory gives its entries, in order; and on any text the scan comes to
an end without an exception. -/
theorem scan_decodes (junk : Nat → Inum) :
    (∀ es : List Entry, (∀ e ∈ es, ValidName e.name) → ∀ fuel, (content es).length < fuel →
      scan junk (content es) fuel 0 = some es) ∧
    ∀ (buf : Bytes) (fuel : Nat), buf.length < fuel → ∃ es, scan junk buf fuel 0 = some es := by
  constructor
  · intro es hes fuel hfuel
    have hlen := length_le_content es
    exact scan_content hes rfl (by omega)
  · intro buf fuel hfuel
    exact scan_total (Nat.zero_le _) hfuel

/-- Two entries, one with a number for a name. -/
theorem scan_decodes_two :
    scan (fun _ => 0) (content [⟨5, [97]⟩, ⟨0x80000007, [53]⟩]) 20 0 =
      some [⟨5, [97]⟩, ⟨0x80000007, [53]⟩] :=
  (scan_decodes _).1 _ (by decide) 20 (by decide +kernel)

/-! ## The reply -/

/-- What is used of libfuse: `fuse_dirent_size`, what `fuse_add_dirent` writes, and where a reader finds
the offset in it. -/
structure Libfuse where
  direntSize : Nat → Nat
  addDirent : Bytes → Inum → UInt64 → Bytes
  offset : Bytes → UInt64
  size_pos : ∀ n, 0 < direntSize n
  length_addDirent : ∀ name ino off, (addDirent name ino off).length = direntSize name.length
  offset_addDirent : ∀ name ino off, offset (addDirent name ino off) = off

/-- What a request is answered with. -/
inductive Reply where
  /-- `ENOTDIR`. -/
  | err
  | buf (b : Bytes)
  deriving DecidableEq, Repr

/-- `dirbuf_add`. The offset in an entry is where the next one starts. -/
def dirbufAdd (L : Libfuse) (b : Bytes) (e : Entry) : Bytes :=
  let size := b.length + L.direntSize e.name.length
  b ++ L.addDirent e.name e.ino (UInt64.ofNat size)

/-- The buffer after all calls of `dirbuf_add`. -/
def dirbuf (L : Libfuse) (es : List Entry) : Bytes := es.foldl (dirbufAdd L) []

/-- `reply_buf_limited`. -/
def replyBufLimited (buf : Bytes) (off maxsize : Nat) : Bytes :=
  if off < buf.length then (buf.drop off).take (min (buf.length - off) maxsize) else []

/-- `fuseserver_readdir`, with what it replies. A directory that cannot be read is replied to twice. -/
def readdir {σ : Type} (L : Libfuse) (E : ExtentOps σ) (junk : Nat → Inum) (ino : Inum)
    (size off : Nat) (s : σ) : Option (σ × List Reply) :=
  if isdir ino then
    let (ret, buf, s) := E.get s ino
    if ret ≠ .ok then some (s, [.err, .buf (replyBufLimited [] off size)])
    else do
      let es ← scan junk buf (buf.length + 1) 0
      return (s, [.buf (replyBufLimited (dirbuf L es) off size)])
  else some (s, [.err])

/-! ## Page after page -/

/-- The entries of libfuse, one for each entry of the directory, if the first one is put at position
`size` of the buffer. -/
def dirents (L : Libfuse) (size : Nat) : List Entry → List Bytes
  | [] => []
  | e :: es =>
      let size := size + L.direntSize e.name.length
      L.addDirent e.name e.ino (UInt64.ofNat size) :: dirents L size es

/-- A reply, and the entries that it contains as a whole. -/
structure Page where
  reply : Bytes
  whole : List Bytes
  deriving DecidableEq, Repr

/-- Reading a directory with the entries `es` from `off` on, until a reply has no entry: each request is
for the offset in the last entry of the reply before it, and finds its own `junk`. It is `none` if there
are more than `fuel` requests, or if one is not answered with a buffer. -/
def listing {σ : Type} (L : Libfuse) (E : ExtentOps σ) (junk : Nat → Nat → Inum) (ino : Inum)
    (size : Nat) (es : List Entry) : (fuel off : Nat) → σ → Option (List Page)
  | 0, _, _ => none
  | fuel + 1, off, s => do
      let (s, replies) ← readdir L E (junk fuel) ino size off s
      match replies with
      | [.buf reply] =>
          let page : Page := ⟨reply, within 0 off reply.length (dirents L 0 es)⟩
          match page.whole.getLast? with
          | none => return [page]
          | some e => do
              let pages ← listing L E junk ino size es fuel (L.offset e).toNat s
              return page :: pages
      | _ => none

section
variable {σ : Type} {L : Libfuse} {E : ExtentOps σ} {junk : Nat → Nat → Inum} {ino : Inum}
  {buf : Bytes} {es : List Entry} {pre post : List Bytes} {b : Bytes}
  {start size off fuel : Nat} {s : σ}

theorem length_of_mem_dirents (hb : b ∈ dirents L start es) :
    ∃ e ∈ es, b.length = L.direntSize e.name.length := by
  induction es generalizing start with
  | nil => cases hb
  | cons e es ih =>
      rcases List.mem_cons.mp hb with rfl | hb
      · exact ⟨e, List.mem_cons_self, L.length_addDirent ..⟩
      · obtain ⟨e', he', hlen⟩ := ih hb
        exact ⟨e', List.mem_cons_of_mem e he', hlen⟩

theorem dirents_ne_nil : ∀ b ∈ dirents L start es, b ≠ [] := by
  intro b hb
  obtain ⟨e, -, hlen⟩ := length_of_mem_dirents hb
  apply List.length_pos_iff.mp
  rw [hlen]
  exact L.size_pos _

theorem foldl_dirbufAdd (b : Bytes) :
    es.foldl (dirbufAdd L) b = b ++ (dirents L b.length es).flatten := by
  induction es generalizing b with
  | nil => simp [dirents]
  | cons e es ih =>
      rw [List.foldl_cons, ih]
      simp [dirbufAdd, dirents, L.length_addDirent]

/-- The buffer is made of the entries. -/
theorem dirbuf_eq : dirbuf L es = (dirents L 0 es).flatten := by
  unfold dirbuf
  rw [foldl_dirbufAdd]
  rfl

/-- The offset in an entry is where it ends. -/
theorem offset_dirents (hsplit : dirents L start es = pre ++ b :: post) :
    L.offset b = UInt64.ofNat (start + (pre ++ [b]).flatten.length) := by
  induction es generalizing start pre with
  | nil => simp [dirents] at hsplit
  | cons e es ih =>
      rw [dirents] at hsplit
      cases pre with
      | nil =>
          obtain ⟨rfl, -⟩ := List.cons.inj hsplit
          rw [L.offset_addDirent]
          simp [L.length_addDirent]
      | cons b' pre =>
          rw [List.cons_append, List.cons.injEq] at hsplit
          obtain ⟨rfl, hsplit⟩ := hsplit
          rw [ih hsplit]
          simp [L.length_addDirent, Nat.add_assoc]

/-- A reply from the start of an entry on. -/
theorem replyBufLimited_eq :
    replyBufLimited (pre ++ post).flatten pre.flatten.length size = post.flatten.take size := by
  unfold replyBufLimited
  rw [List.flatten_append, List.length_append, List.drop_left]
  split
  · rw [Nat.add_sub_cancel_left]
    rcases Nat.le_total post.flatten.length size with h | h
    · rw [Nat.min_eq_left h, List.take_length, List.take_of_length_le h]
    · rw [Nat.min_eq_right h]
  · have hnil : post.flatten = [] := List.length_eq_zero_iff.mp (by omega)
    rw [hnil, List.take_nil]

theorem length_dirents_le (hsize : ∀ e ∈ es, L.direntSize e.name.length ≤ size) :
    ∀ b ∈ dirents L start es, b.length ≤ size := by
  intro b hb
  obtain ⟨e, he, hlen⟩ := length_of_mem_dirents hb
  rw [hlen]
  exact hsize e he

/-- The first page from the start of an entry on: some entries, if there are any. -/
theorem page_whole (hne : ∀ x ∈ pre ++ b :: post, x ≠ []) (hle : b.length ≤ size) :
    ∃ q rest, q ≠ [] ∧ b :: post = q ++ rest ∧
      within 0 pre.flatten.length ((b :: post).flatten.take size).length (pre ++ b :: post) = q ∧
      q.flatten <+: (b :: post).flatten.take size := by
  obtain ⟨n, hn⟩ : ∃ n, n = ((b :: post).flatten.take size).length := ⟨_, rfl⟩
  rw [← hn, within_eq_fits hne]
  obtain ⟨rest, hrest⟩ := fits_prefix n (b :: post)
  have htake : (b :: post).flatten.take n = (b :: post).flatten.take size := by
    rw [List.take_eq_take_iff, hn, List.length_take]
    omega
  refine ⟨fits n (b :: post), rest, fits_ne_nil ?_, hrest.symm, rfl, ?_⟩
  · rw [hn, List.length_take, List.flatten_cons, List.length_append]
    omega
  · rw [← htake]
    exact fits_prefix_take n (b :: post)

/-- Reading on from the start of an entry gives the entries from there on. -/
theorem listing_from {I : σ → Prop} (hE : E.Stays ino buf I) (hdir : isdir ino = true)
    (hscan : ∀ n, scan (junk n) buf (buf.length + 1) 0 = some es)
    (hsize : ∀ e ∈ es, L.direntSize e.name.length ≤ size) (hmem : (dirbuf L es).length < 2 ^ 63)
    (hsplit : dirents L 0 es = pre ++ post) (hs : I s) (hfuel : post.length < fuel) :
    ∃ pages, listing L E junk ino size es fuel pre.flatten.length s = some (pages ++ [⟨[], []⟩]) ∧
      pages.flatMap Page.whole = post ∧ ∀ p ∈ pages, p.whole.flatten <+: p.reply := by
  induction fuel generalizing pre post s with
  | zero => exact absurd hfuel (Nat.not_lt_zero _)
  | succ fuel ih =>
      obtain ⟨s', hget, hs'⟩ := hE s hs
      have hread : readdir L E (junk fuel) ino size pre.flatten.length s =
          some (s', [.buf (post.flatten.take size)]) := by
        have hreply : replyBufLimited (dirbuf L es) pre.flatten.length size =
            post.flatten.take size := by
          rw [dirbuf_eq, hsplit, replyBufLimited_eq]
        simp only [readdir, hdir, if_true, hget, ne_eq, not_true_eq_false, if_false, hscan,
          Option.bind_eq_bind, Option.bind_some, hreply]
        rfl
      have hne : ∀ x ∈ pre ++ post, x ≠ [] := hsplit ▸ dirents_ne_nil
      cases post with
      | nil =>
          refine ⟨[], ?_, rfl, by simp⟩
          have hwhole : within 0 pre.flatten.length 0 (pre ++ []) = [] := within_eq_fits hne
          simp only [listing, hread, hsplit, Option.bind_eq_bind, Option.bind_some, List.flatten_nil,
            List.take_nil, List.length_nil, hwhole]
          rfl
      | cons b post =>
          have hb : b ∈ dirents L 0 es := by simp [hsplit]
          have hle := length_dirents_le hsize b hb
          obtain ⟨q, rest, hq, hrest, hwhole, hprefix⟩ := page_whole hne hle
          obtain ⟨q', e, hlast⟩ := (List.eq_nil_or_concat q).resolve_left hq
          rw [List.concat_eq_append] at hlast
          subst hlast
          -- the offset in the last entry of the page is where the rest starts
          have hall : dirents L 0 es = (pre ++ (q' ++ [e])) ++ rest := by
            rw [hsplit, hrest]
            simp
          have hoff : (L.offset e).toNat = (pre ++ (q' ++ [e])).flatten.length := by
            have hsplit' : dirents L 0 es = (pre ++ q') ++ e :: rest := by simp [hall]
            have h := offset_dirents hsplit'
            rw [dirbuf_eq, hall, List.flatten_append, List.length_append] at hmem
            rw [h, Nat.zero_add, List.append_assoc, UInt64.toNat_ofNat']
            exact Nat.mod_eq_of_lt (by omega)
          have hlen : rest.length < fuel := by
            have := congrArg List.length hrest
            simp only [List.length_cons, List.length_append] at this hfuel
            omega
          obtain ⟨pages, hpages, hentries, hbytes⟩ := ih hall hs' hlen
          refine ⟨⟨(b :: post).flatten.take size, q' ++ [e]⟩ :: pages, ?_, ?_, ?_⟩
          · rw [← hoff] at hpages
            simp only [listing, hread, hsplit, hwhole, Option.bind_eq_bind, Option.bind_some,
              List.getLast?_concat, hpages, Option.pure_def, List.cons_append]
          · rw [List.flatMap_cons, hentries, hrest]
          · intro p hp
            rcases List.mem_cons.mp hp with rfl | hp
            · exact hprefix
            · exact hbytes p hp

theorem length_dirents : (dirents L start es).length = es.length := by
  induction es generalizing start with
  | nil => rfl
  | cons e es ih => rw [dirents, List.length_cons, List.length_cons, ih]

/-- Reading a directory that stays as it is, with room for any one of its entries in a reply: the
replies contain the entry of libfuse for each entry of the directory, each one once and in order, and
then comes an empty reply. -/
theorem listing_complete {I : σ → Prop} (hE : E.Stays ino buf I) (hs : I s) (hdir : isdir ino = true)
    (hscan : ∀ n, scan (junk n) buf (buf.length + 1) 0 = some es)
    (hsize : ∀ e ∈ es, L.direntSize e.name.length ≤ size) (hmem : (dirbuf L es).length < 2 ^ 63)
    (hfuel : es.length < fuel) :
    ∃ pages, listing L E junk ino size es fuel 0 s = some (pages ++ [⟨[], []⟩]) ∧
      pages.flatMap Page.whole = dirents L 0 es ∧ ∀ p ∈ pages, p.whole.flatten <+: p.reply := by
  have hsplit : dirents L 0 es = [] ++ dirents L 0 es := rfl
  rw [← length_dirents] at hfuel
  exact listing_from hE hdir hscan hsize hmem hsplit hs hfuel

end

/-! ## The entries of the kernel -/

/-- Least significant byte first. -/
def le32 (x : UInt32) : Bytes := [byte x 0, byte x 8, byte x 16, byte x 24]

def le64 (x : UInt64) : Bytes := le32 x.toUInt32 ++ le32 (x >>> 32).toUInt32

def readLe64 : Bytes → UInt64
  | [a, b, c, d, e, f, g, h] => word64 (word h g f e) (word d c b a)
  | _ => 0

theorem readLe64_le64 (x : UInt64) : readLe64 (le64 x) = x := by
  simp [readLe64, le64, le32]

/-- Inode number, offset, length of the name, type, name, and zeros up to a multiple of 8. -/
def kernelDirents : Libfuse where
  direntSize n := (24 + n + 7) / 8 * 8
  addDirent name ino off :=
    le64 ino ++ le64 off ++ le32 (UInt32.ofNat name.length) ++ le32 0 ++ name ++
      List.replicate ((24 + name.length + 7) / 8 * 8 - (24 + name.length)) 0
  offset b := readLe64 ((b.drop 8).take 8)
  size_pos n := by omega
  length_addDirent name ino off := by
    simp [le64, le32]
    omega
  offset_addDirent name ino off := by
    rw [show ((_ : Bytes).drop 8).take 8 = le64 off from rfl, readLe64_le64]

/-- "a" for inode 5 and "b" for inode 7. -/
def twoEntries : List Entry := [⟨5, [97]⟩, ⟨7, [98]⟩]

/-- Two entries of 32 bytes each, read 40 bytes at a time: the second one is cut by the first reply. -/
theorem listing_complete_cut :
    ∃ pages, listing kernelDirents mapOps (fun _ _ => 0) 1 40 twoEntries 3 0
        (fun _ => some (content twoEntries)) = some (pages ++ [⟨[], []⟩]) ∧
      pages.flatMap Page.whole = dirents kernelDirents 0 twoEntries := by
  have hscan : scan (fun _ => 0) (content twoEntries) ((content twoEntries).length + 1) 0 =
      some twoEntries := by
    decide +kernel
  have hsize : ∀ e ∈ twoEntries, kernelDirents.direntSize e.name.length ≤ 40 := by
    decide
  have hmem : (dirbuf kernelDirents twoEntries).length < 2 ^ 63 := by
    decide +kernel
  have hfuel : twoEntries.length < 3 := by
    decide
  obtain ⟨pages, hpages, hentries, -⟩ := listing_complete (mapOps_stays 1 (content twoEntries))
    (s := fun _ => some (content twoEntries)) rfl (by decide) (fun _ => hscan) hsize hmem hfuel
  exact ⟨pages, hpages, hentries⟩

end Yfs.Fs
