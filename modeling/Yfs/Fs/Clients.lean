import Yfs.Fs.Atomic
import Yfs.Fs.Tree

/-!
# Many clients, one file system

`Represents` says how the extents hold a file system. A call that takes effect at once does there
what it should (`Represents.exec`), if it creates nothing under a number in use, and its name cannot
be taken for a number.

With `yfs_atomic` it follows that any number of clients, with their caches, work on one file system
(`yfs_tree`). That no number in use is drawn is known from the calls alone: it is enough that all the
calls of `create` draw different numbers, and none that of the root.
-/

namespace Yfs.Fs

open Yfs.Lib Function
open Yfs.Extents (ExtentId Extent contents)
open Yfs.Lock (Act)
open Yfs.Rpc (Bytes)

/-- A name without slashes that is not a number. -/
def PlainName (name : Bytes) : Prop := slash ∉ name ∧ ∃ b ∈ name, isDigit b = false

/-- Names are plain, `read`, `write` and `setattr` are called on files, and the first 2 GiB of a file
are all that is used. -/
def YfsCall.Plain : YfsCall → Prop
  | create _ name _ _ | lookup _ name _ => PlainName name
  | read ino size off => isfile ino = true ∧ 0 ≤ off ∧ off.toInt + size.toNat < 2 ^ 31
  | write ino buf off => isfile ino = true ∧ off.toInt + buf.length < 2 ^ 31
  | setattr fileno stSize => isfile fileno = true ∧ 0 ≤ stSize ∧ stSize.toInt < 2 ^ 31
  | getdata _ => True

/-! ## How the extents hold it -/

/-- What is stored under the number of a node. -/
inductive Shows (i : Inum) : Option Bytes → Option Node → Prop where
  | none : Shows i none none
  | dir {es : List Entry} : isdir i = true → (∀ e ∈ es, PlainName e.name) →
      Shows i (some (content es)) (some (.dir es))
  | file {data : Bytes} : isfile i = true → data.length < 2 ^ 31 →
      Shows i (some data) (some (.file data))

def Represents (m : Inum → Option Bytes) (t : Tree) : Prop := ∀ i, Shows i (m i) (t i)

section

variable {m m' : Inum → Option Bytes} {t t' : Tree} {i : Inum} {name : Bytes} {es : List Entry}
  {c : YfsCall} {r : YfsResult}

theorem Represents.set (h : Represents m t) {d : Option Bytes} {n : Option Node}
    (hs : Shows i d n) : Represents (update m i d) (update t i n) := by
  intro j
  by_cases hj : j = i
  · subst hj
    rw [update_self, update_self]
    exact hs
  · rw [update_of_ne hj, update_of_ne hj]
    exact h j

/-- A directory without entries is empty. -/
theorem shows_empty (h : isdir i = true) : Shows i (some []) (some (.dir [])) := by
  have hnone : ∀ e ∈ ([] : List Entry), PlainName e.name := by simp
  exact .dir h hnone

theorem represents_initial :
    Represents (fun i => if i = 1 then some [] else none) Tree.initial := by
  intro i
  unfold Tree.initial
  dsimp only
  split
  · rename_i hi
    subst hi
    exact shows_empty (by decide)
  · exact .none

/-- No inode number is taken for a plain name. -/
theorem PlainName.clear (h : PlainName name) (es : List Entry) : Clear name es := by
  obtain ⟨-, b, hb, hdigit⟩ := h
  have hne : ∀ i, filename i ≠ name := by
    rintro i rfl
    rw [digits_filename hb] at hdigit
    cases hdigit
  have htail : ∀ es, ClearTail name es := by
    intro es
    induction es with
    | nil => trivial
    | cons e es ih => exact ⟨hne e.ino, .inr ih⟩
  cases es with
  | nil => trivial
  | cons e es => exact .inr (htail es)

/-- A new directory does not have the bit of a file. -/
theorem isdir_randInum (rand : UInt32) : isdir (randInum false rand) = true := by
  have hmask : (0x7fffffff : UInt64) &&& 0x80000000 = 0 := rfl
  have hbits : randInum false rand &&& 0x80000000 = 0 := by
    simp [randInum, UInt64.and_assoc, hmask]
  simp [isdir, isfile, hbits]

theorem shows_new (file : Bool) (rand : UInt32) :
    Shows (randInum file rand) (some []) (some (.new file)) := by
  cases file with
  | true => exact .file (isfile_randInum rand) (by simp)
  | false => exact shows_empty (isdir_randInum rand)

/-- A call does what it should, and the extents hold what it should leave. -/
def Refined (t : Tree) (c : YfsCall) (r : YfsResult) (m' : Inum → Option Bytes) : Prop :=
  ∃ t', c.spec t = some (r, t') ∧ Represents m' t'

theorem Represents.create (h : Represents m t) {parent : Inum} {file : Bool} {rand : UInt32}
    (hname : PlainName name) (hnum : t (randInum file rand) = none)
    (hexec : (YfsCall.create parent name file rand).exec m = some (r, m')) :
    Refined t (.create parent name file rand) r m' := by
  have hparent := h parent
  generalize hm : m parent = d, ht : t parent = n at hparent
  cases hparent with
  | none =>
      have hnoent : (YfsCall.create parent name file rand).exec m =
          some (.create .noent none, m) := by
        cases hdir : isdir parent <;>
          simp [YfsCall.exec, Fs.create, mapOps, hdir, hm, Status.ofExtent]
      rw [hnoent] at hexec
      cases hexec
      exact ⟨t, by simp [YfsCall.spec, ht], h⟩
  | file hfile _ =>
      have hnoent : (YfsCall.create parent name file rand).exec m =
          some (.create .noent none, m) := by
        simp [YfsCall.exec, Fs.create, isdir, hfile]
      rw [hnoent] at hexec
      cases hexec
      exact ⟨t, by simp [YfsCall.spec, ht], h⟩
  | @dir es hdir hes =>
      have hslash : ∀ e ∈ es, slash ∉ e.name := fun e he => (hes e he).1
      by_cases hmem : name ∈ names es
      · have hexist : (YfsCall.create parent name file rand).exec m =
            some (.create .exist none, m) := by
          simp [YfsCall.exec, Fs.create, mapOps, hdir, hm, find_content_isSome hslash hmem]
        rw [hexist] at hexec
        cases hexec
        exact ⟨t, by simp [YfsCall.spec, ht, List.mem_map.mp hmem], h⟩
      · have hfind := find_content_none hname.1 hslash (hname.clear es) hmem
        have hnew : ¬ ∃ e ∈ es, e.name = name := fun he => hmem (List.mem_map.mpr he)
        have hne : randInum file rand ≠ parent := by
          intro heq
          rw [heq, ht] at hnum
          cases hnum
        have hok : (YfsCall.create parent name file rand).exec m =
            some (.create .ok (some (randInum file rand)),
              update (update m (randInum file rand) (some [])) parent
                (some (content (es ++ [⟨randInum file rand, name⟩])))) := by
          simp [YfsCall.exec, Fs.create, mapOps, hdir, hm, hfind, hne, randInum_and, content_concat]
        rw [hok] at hexec
        cases hexec
        refine ⟨_, by simp only [YfsCall.spec, ht, if_neg hnew]; rfl, ?_⟩
        refine (h.set ?_).set (.dir hdir ?_)
        · exact shows_new file rand
        · intro e he
          rcases List.mem_append.mp he with he | he
          · exact hes e he
          · rw [List.mem_singleton.mp he]
            exact hname

theorem Represents.lookup (h : Represents m t) {parent junk : Inum} (hname : PlainName name)
    (hexec : (YfsCall.lookup parent name junk).exec m = some (r, m')) :
    Refined t (.lookup parent name junk) r m' := by
  have hne : name ≠ [] := by
    rintro rfl
    obtain ⟨-, b, hb, -⟩ := hname
    cases hb
  have hparent := h parent
  generalize hm : m parent = d, ht : t parent = n at hparent
  cases hparent with
  | none =>
      have hnone : (YfsCall.lookup parent name junk).exec m = some (.lookup false none, m) := by
        cases hdir : isdir parent <;> simp [YfsCall.exec, Fs.lookup, mapOps, hdir, hm, hne]
      rw [hnone] at hexec
      cases hexec
      exact ⟨t, by simp [YfsCall.spec, ht], h⟩
  | file hfile _ =>
      have hnone : (YfsCall.lookup parent name junk).exec m = some (.lookup false none, m) := by
        simp [YfsCall.exec, Fs.lookup, isdir, hfile]
      rw [hnone] at hexec
      cases hexec
      exact ⟨t, by simp [YfsCall.spec, ht], h⟩
  | @dir es hdir hes =>
      have hslash : ∀ e ∈ es, slash ∉ e.name := fun e he => (hes e he).1
      by_cases hmem : name ∈ names es
      · obtain ⟨pre, e, post, rfl, rfl, hpre⟩ := exists_split hmem
        have hfind := find_content hslash (hname.clear _) hpre
        obtain ⟨-, hlt, hino⟩ := entry_text pre post e junk
        have hfound : (YfsCall.lookup parent e.name junk).exec m =
            some (.lookup true (some e.ino), m) := by
          simp [YfsCall.exec, Fs.lookup, mapOps, hdir, hm, hne, hfind, hino]
          exact ⟨fun _ => filename_ne_nil _, hlt⟩
        rw [hfound] at hexec
        cases hexec
        exact ⟨t, by simp [YfsCall.spec, ht, find_entry hpre], h⟩
      · have hfind := find_content_none hname.1 hslash (hname.clear es) hmem
        have hnone : (YfsCall.lookup parent name junk).exec m = some (.lookup false none, m) := by
          simp [YfsCall.exec, Fs.lookup, mapOps, hdir, hm, hne, hfind]
        rw [hnone] at hexec
        cases hexec
        exact ⟨t, by simp [YfsCall.spec, ht, find_entry_none hmem], h⟩

/-- A read that starts beyond the end throws. -/
theorem readBytes_beyond {buf : Bytes} {size : UInt64} {off : Int64} (hbuf : buf.length ≤ maxSize)
    (hoff : 0 ≤ off) (hbeyond : buf.length < off.toInt) (hsmall : off.toInt + size.toNat < 2 ^ 31) :
    ∃ e, readBytes buf size off = .error e := by
  have ho := toNat_toUInt64 hoff
  have hlen := toNat_ssize hbuf
  have hsum : (off.toUInt64 + size).toNat = off.toUInt64.toNat + size.toNat := by
    rw [UInt64.toNat_add, Nat.mod_eq_of_lt (by omega)]
  have hlt : off.toUInt64 + size > ssize buf := by
    show ssize buf < off.toUInt64 + size
    rw [UInt64.lt_iff_toNat_lt]
    omega
  have hsub : ∀ n, substrAt buf off.toUInt64 n = .error .outOfRange := fun n =>
    if_neg (by omega)
  unfold readBytes
  rw [if_pos hlt]
  simp only [hsub]
  cases zeroed _ _ with
  | error e => exact ⟨e, rfl⟩
  | ok a => exact ⟨.outOfRange, rfl⟩

theorem Represents.read (h : Represents m t) {ino : Inum} {size : UInt64} {off : Int64}
    (hc : (YfsCall.read ino size off).Plain)
    (hexec : (YfsCall.read ino size off).exec m = some (r, m')) :
    Refined t (.read ino size off) r m' := by
  obtain ⟨hfile, hoff, hsmall⟩ := hc
  have hino := h ino
  generalize hm : m ino = d, ht : t ino = n at hino
  cases hino with
  | none =>
      have hnoent : (YfsCall.read ino size off).exec m = some (.read .noent none, m) := by
        simp [YfsCall.exec, Fs.read, mapOps, hm, Status.ofExtent, Except.toOption]
      rw [hnoent] at hexec
      cases hexec
      exact ⟨t, by simp [YfsCall.spec, ht], h⟩
  | dir hdir _ => simp [isdir, hfile] at hdir
  | @file data _ hlen =>
      have hmax : data.length ≤ maxSize := by
        unfold maxSize
        omega
      have hpos : 0 ≤ off.toInt := by simpa [Int64.le_iff_toInt_le] using hoff
      have hread : (YfsCall.read ino size off).exec m =
          (readBytes data size off).toOption.map fun buf => (.read .ok (some buf), m) := by
        simp only [YfsCall.exec, Fs.read, mapOps, hm]
        cases readBytes data size off <;> rfl
      rw [hread] at hexec
      by_cases hin : off.toInt ≤ data.length
      · rw [readBytes_ok hmax hoff hin (by omega)] at hexec
        cases hexec
        refine ⟨t, ?_, h⟩
        have hle : off.toInt.toNat ≤ data.length := by omega
        simp only [YfsCall.spec, ht, if_pos hle]
      · obtain ⟨e, he⟩ := readBytes_beyond hmax hoff (by omega) (by omega)
        rw [he] at hexec
        cases hexec

/-- `write` and `setattr` put what they make of the contents. -/
theorem Represents.modify (h : Represents m t) {ino : Inum} {f : Bytes → Except Fault Bytes}
    {g : Bytes → Bytes} (hfile : isfile ino = true)
    (hf : ∀ data : Bytes, data.length < 2 ^ 31 → f data = .ok (g data) ∧ (g data).length < 2 ^ 31)
    (hexec : ((Fs.modify mapOps ino f m).toOption.map fun (m, ret) => (YfsResult.status ret, m)) =
      some (r, m')) :
    (t ino = none ∧ r = .status .noent ∧ m' = m) ∨ ∃ data, t ino = some (.file data) ∧
      r = .status .ok ∧ Represents m' (update t ino (some (.file (g data)))) := by
  have hino := h ino
  generalize hm : m ino = d, ht : t ino = n at hino
  cases hino with
  | none =>
      simp only [Fs.modify, mapOps, hm] at hexec
      cases hexec
      exact .inl ⟨rfl, rfl, rfl⟩
  | dir hdir _ => simp [isdir, hfile] at hdir
  | @file data _ hlen =>
      obtain ⟨hfd, hgd⟩ := hf data hlen
      simp only [Fs.modify, mapOps, hm, hfd] at hexec
      cases hexec
      exact .inr ⟨data, rfl, rfl, h.set (.file hfile hgd)⟩

theorem Represents.write (h : Represents m t) {ino : Inum} {buf : Bytes} {off : Int64}
    (hc : (YfsCall.write ino buf off).Plain)
    (hexec : (YfsCall.write ino buf off).exec m = some (r, m')) :
    Refined t (.write ino buf off) r m' := by
  obtain ⟨hfile, hsmall⟩ := hc
  by_cases hoff : off < 0
  · simp only [YfsCall.exec, Fs.write, hoff, if_true] at hexec
    cases hexec
    refine ⟨t, ?_, h⟩
    simp only [YfsCall.spec, hoff, if_true]
    split <;> rfl
  · have hpos : 0 ≤ off.toInt := by simpa [Int64.lt_iff_toInt_lt] using hoff
    simp only [YfsCall.exec, Fs.write, hoff, if_false] at hexec
    have hwrite : ∀ data : Bytes, data.length < 2 ^ 31 →
        writeBytes data buf off = .ok (splice data buf off.toInt.toNat) ∧
          (splice data buf off.toInt.toNat).length < 2 ^ 31 := by
      intro data hlen
      have hdata : data.length ≤ maxSize := by
        unfold maxSize
        omega
      have hbuf : buf.length ≤ maxSize := by
        unfold maxSize
        omega
      rw [writeBytes_eq hdata hbuf (Int64.not_lt.mp hoff), Nat.mod_eq_of_lt (by omega),
        (written_splice data buf off.toInt.toNat).length]
      exact ⟨rfl, by omega⟩
    rcases h.modify hfile hwrite hexec with ⟨ht, rfl, rfl⟩ | ⟨data, ht, rfl, h'⟩
    · exact ⟨t, by simp [YfsCall.spec, ht], h⟩
    · exact ⟨_, by simp only [YfsCall.spec, ht, hoff, if_false], h'⟩

theorem Represents.setattr (h : Represents m t) {fileno : Inum} {stSize : Int64}
    (hc : (YfsCall.setattr fileno stSize).Plain)
    (hexec : (YfsCall.setattr fileno stSize).exec m = some (r, m')) :
    Refined t (.setattr fileno stSize) r m' := by
  obtain ⟨hfile, hsize, hsmall⟩ := hc
  have hresize : ∀ data : Bytes, data.length < 2 ^ 31 →
      let n := stSize.toInt.toNat
      resize data stSize = .ok (data.take n ++ List.replicate (n - data.length) 0) ∧
        (data.take n ++ List.replicate (n - data.length) 0).length < 2 ^ 31 := by
    intro data hlen n
    refine ⟨resize_ok hsize (by omega) (by omega), ?_⟩
    rw [List.length_append, List.length_take, List.length_replicate]
    omega
  rcases h.modify hfile hresize hexec with ⟨ht, rfl, rfl⟩ | ⟨data, ht, rfl, h'⟩
  · exact ⟨t, by simp [YfsCall.spec, ht], h⟩
  · exact ⟨_, by simp only [YfsCall.spec, ht], h'⟩

theorem Represents.getdata (h : Represents m t) {ino : Inum}
    (hexec : (YfsCall.getdata ino).exec m = some (r, m')) : Refined t (.getdata ino) r m' := by
  rw [YfsCall.exec, mapOps_get] at hexec
  cases hexec
  refine ⟨t, ?_, h⟩
  have hino := h ino
  generalize m ino = d, ht : t ino = n at hino
  cases hino <;> simp [YfsCall.spec, ht, contents, Node.bytes]

/-- Every call that takes effect at once does what it should. -/
theorem Represents.exec (h : Represents m t) (hc : c.Plain)
    (hnum : ∀ n, c.number = some n → t n = none) (hexec : c.exec m = some (r, m')) :
    Refined t c r m' := by
  cases c with
  | create parent name isfile rand => exact h.create hc (hnum _ rfl) hexec
  | lookup parent name junk => exact h.lookup hc hexec
  | read ino size off => exact h.read hc hexec
  | write ino buf off => exact h.write hc hexec
  | setattr fileno stSize => exact h.setattr hc hexec
  | getdata ino => exact h.getdata hexec

end

/-! ## All clients -/

/-- The inode numbers that `rand_inum` has for the calls, whether or not they come to draw them. -/
def numbers (τ : List FsEvent) : List Inum :=
  τ.filterMap fun
    | .called _ c => c.number
    | .returned .. => none

/-- The extents hold the file system, and the calls that have not run yet will find their numbers
unused. -/
structure TreeSim (τ : List FsEvent) (a : Atomic Act Inum (Option Bytes) YfsCall YfsResult)
    (b : Atomic Act Inum (Option Node) YfsCall YfsResult) : Prop where
  store : Represents a.store b.store
  rooted : Tree.Rooted b.store
  thread : b.thread = a.thread
  called : ∀ u c, a.thread u = some (c, none) → .called u c ∈ τ
  fresh : ∀ u c n, a.thread u = some (c, none) → c.number = some n → b.store n = none
  distinct : ∀ u v c d n, a.thread u = some (c, none) → a.thread v = some (d, none) →
    c.number = some n → d.number = some n → u = v
  used : ∀ i, b.store i ≠ none → i = 1 ∨ i ∈ numbers τ

section

variable {τ : List FsEvent} {a a' : Atomic Act Inum (Option Bytes) YfsCall YfsResult}
  {b : Atomic Act Inum (Option Node) YfsCall YfsResult} {u : Act} {c : YfsCall} {r : YfsResult}
  {m₀ m : Inum → Option Bytes} {es : List FsEvent}

theorem mem_numbers {n : Inum} (h : .called u c ∈ τ) (hn : c.number = some n) : n ∈ numbers τ :=
  List.mem_filterMap.mpr ⟨_, h, hn⟩

theorem numbers_called : numbers (τ ++ [.called u c]) = numbers τ ++ c.number.toList := by
  cases hn : c.number <;> simp [numbers, hn]

theorem numbers_returned : numbers (τ ++ [.returned u c r]) = numbers τ := by
  simp [numbers]

/-- A number that is drawn is neither in use nor will be. -/
theorem number_new (h : (1 :: numbers (τ ++ [.called u c])).Nodup) {n : Inum}
    (hn : c.number = some n) : n ∉ 1 :: numbers τ := by
  intro hmem
  rw [numbers_called, ← List.cons_append, hn] at h
  exact (List.nodup_append.mp h).2.2 n hmem n (by simp) rfl

theorem treeSim_initial : TreeSim [] ⟨fun i => if i = 1 then some [] else none, fun _ => none⟩
    ⟨Tree.initial, fun _ => none⟩ where
  store := represents_initial
  rooted := Tree.rooted_initial
  thread := rfl
  called _ _ h := by cases h
  fresh _ _ _ h := by cases h
  distinct _ _ _ _ _ h := by cases h
  used i hi := by
    by_contra hne
    simp [Tree.initial, (not_or.mp hne).1] at hi

theorem TreeSim.call (h : TreeSim τ a b) (hu : a.thread u = none)
    (hnodup : (1 :: numbers (τ ++ [.called u c])).Nodup) :
    TreeSim (τ ++ [.called u c]) { a with thread := update a.thread u (some (c, none)) }
      { b with thread := update b.thread u (some (c, none)) } := by
  have hnew : ∀ n, c.number = some n → n ∉ 1 :: numbers τ := fun n hn => number_new hnodup hn
  have hpending : ∀ v d, update a.thread u (some (c, none)) v = some (d, none) →
      v = u ∧ d = c ∨ v ≠ u ∧ a.thread v = some (d, none) := by
    intro v d hv
    by_cases hvu : v = u
    · subst hvu
      rw [update_self] at hv
      cases hv
      exact .inl ⟨rfl, rfl⟩
    · rw [update_of_ne hvu] at hv
      exact .inr ⟨hvu, hv⟩
  constructor
  · exact h.store
  · exact h.rooted
  · rw [h.thread]
  · intro v d hv
    rcases hpending v d hv with ⟨rfl, rfl⟩ | ⟨-, hv⟩
    · simp
    · exact List.mem_append_left _ (h.called v d hv)
  · intro v d n hv hn
    rcases hpending v d hv with ⟨rfl, rfl⟩ | ⟨-, hv⟩
    · by_contra hused
      exact hnew n hn (List.mem_cons.mpr (h.used n hused))
    · exact h.fresh v d n hv hn
  · intro v w d e n hv hw hd he
    rcases hpending v d hv with ⟨rfl, rfl⟩ | ⟨-, hv'⟩
    · rcases hpending w e hw with ⟨rfl, rfl⟩ | ⟨-, hw'⟩
      · rfl
      · exact absurd (List.mem_cons_of_mem _ (mem_numbers (h.called w e hw') he)) (hnew n hd)
    · rcases hpending w e hw with ⟨rfl, rfl⟩ | ⟨-, hw'⟩
      · exact absurd (List.mem_cons_of_mem _ (mem_numbers (h.called v d hv') hd)) (hnew n he)
      · exact h.distinct v w d e n hv' hw' hd he
  · intro i hi
    rw [numbers_called]
    exact (h.used i hi).imp_right (List.mem_append_left _)

theorem TreeSim.run (h : TreeSim τ a b) (hu : a.thread u = some (c, none)) (hc : c.Plain)
    (hexec : c.exec a.store = some (r, m)) :
    ∃ t, c.spec b.store = some (r, t) ∧
      TreeSim τ { store := m, thread := update a.thread u (some (c, some r)) }
        { store := t, thread := update b.thread u (some (c, some r)) } := by
  have hnum := fun n hn => h.fresh u c n hu hn
  obtain ⟨t, hspec, hstore⟩ := h.store.exec hc hnum hexec
  obtain ⟨hrooted, hadded⟩ := c.rooted_spec hnum hspec
  have hpending : ∀ v d, update a.thread u (some (c, some r)) v = some (d, none) →
      v ≠ u ∧ a.thread v = some (d, none) := by
    intro v d hv
    by_cases hvu : v = u
    · rw [hvu, update_self] at hv
      cases hv
    · rw [update_of_ne hvu] at hv
      exact ⟨hvu, hv⟩
  refine ⟨t, hspec, ?_⟩
  constructor
  · exact hstore
  · exact hrooted h.rooted
  · rw [h.thread]
  · intro v d hv
    exact h.called v d (hpending v d hv).2
  · intro v d n hv hn
    obtain ⟨hvu, hv⟩ := hpending v d hv
    by_contra hused
    exact hvu (h.distinct v u d c n hv hu hn (hadded n (h.fresh v d n hv hn) hused))
  · intro v w d e n hv hw
    exact h.distinct v w d e n (hpending v d hv).2 (hpending w e hw).2
  · intro i hi
    by_cases hold : b.store i = none
    · exact .inr (mem_numbers (h.called u c hu) (hadded i hold hi))
    · exact h.used i hold

theorem TreeSim.ret (h : TreeSim τ a b) :
    TreeSim (τ ++ [.returned u c r]) { a with thread := update a.thread u none }
      { b with thread := update b.thread u none } := by
  have hpending : ∀ v d, update a.thread u none v = some (d, none) →
      a.thread v = some (d, none) := by
    intro v d hv
    by_cases hvu : v = u
    · rw [hvu, update_self] at hv
      cases hv
    · rwa [update_of_ne hvu] at hv
  constructor
  · exact h.store
  · exact h.rooted
  · rw [h.thread]
  · exact fun v d hv => List.mem_append_left _ (h.called v d (hpending v d hv))
  · exact fun v d n hv => h.fresh v d n (hpending v d hv)
  · exact fun v w d e n hv hw => h.distinct v w d e n (hpending v d hv) (hpending w e hw)
  · rw [numbers_returned]
    exact h.used

/-- A step on the extents is a step on the file system. -/
theorem TreeSim.next (h : TreeSim τ a b) {act : TxnAction Act YfsCall}
    (hplain : ∀ u c, .called u c ∈ τ → c.Plain) (hnodup : (1 :: numbers (τ ++ es)).Nodup)
    (hn : (atomicSystem (fun (c : YfsCall) m => c.exec m) m₀).next a act = some (a', es)) :
    ∃ b', (atomicSystem (fun (c : YfsCall) t => c.spec t) Tree.initial).next b act =
      some (b', es) ∧ TreeSim (τ ++ es) a' b' := by
  cases act with
  | call u c =>
      simp only [atomicSystem] at hn
      split at hn
      · rename_i hu
        cases hn
        exact ⟨_, by simp [atomicSystem, h.thread, hu], h.call hu hnodup⟩
      · cases hn
  | step u =>
      simp only [atomicSystem] at hn
      split at hn
      · cases hn
      · rename_i c hu
        obtain ⟨⟨r, m⟩, hexec, heq⟩ := Option.map_eq_some_iff.mp hn
        cases heq
        obtain ⟨t, hspec, hsim⟩ := h.run hu (hplain u c (h.called u c hu)) hexec
        refine ⟨_, by simp only [atomicSystem, h.thread, hu, hspec]; rfl, ?_⟩
        rw [List.append_nil]
        simpa only [h.thread] using hsim
      · rename_i c r hu
        cases hn
        exact ⟨_, by simp [atomicSystem, h.thread, hu], h.ret⟩

theorem exists_tree (hplain : ∀ u c, .called u c ∈ τ → c.Plain) (hnodup : (1 :: numbers τ).Nodup)
    (h : (atomicSystem (fun (c : YfsCall) m => c.exec m)
      fun i => if i = 1 then some [] else none).Run τ a) :
    ∃ b, (atomicSystem (fun (c : YfsCall) t => c.spec t) Tree.initial).Run τ b ∧ TreeSim τ a b := by
  induction h with
  | start hs =>
      cases hs
      exact ⟨_, .start rfl, treeSim_initial⟩
  | @step τ a act a' es _ hn ih =>
      have hsub : (1 :: numbers τ).Sublist (1 :: numbers (τ ++ es)) := by
        simp [numbers]
      obtain ⟨b, hrun, hsim⟩ :=
        ih (fun u c hu => hplain u c (List.mem_append_left _ hu)) (hnodup.sublist hsub)
      obtain ⟨b', hn', hsim'⟩ :=
        hsim.next (fun u c hu => hplain u c (List.mem_append_left _ hu)) hnodup hn
      exact ⟨b', hrun.step hn', hsim'⟩

end

/-- The extents when the extent server has started. -/
def mkfs (attr : Extents.Attr) : ExtentId → Option Extent :=
  fun i => if i = 1 then some ⟨[], attr⟩ else none

/-- Whatever plain calls any number of clients make and however their steps are interleaved: if all
the numbers drawn are different, then the calls return what they return when each takes effect at
once, between its call and its return, on one file system. There every node has exactly one path. -/
theorem yfs_tree {attr : Extents.Attr} {τ : List FsEvent} {s : FsState}
    (h : (fsSystem (mkfs attr)).Run τ s) (hplain : ∀ u c, .called u c ∈ τ → c.Plain)
    (hnodup : (1 :: numbers τ).Nodup) :
    ∃ t, (atomicSystem (fun (c : YfsCall) t => c.spec t) Tree.initial).Run τ t ∧
      ∀ i, t.store i ≠ none → ∃! p, Tree.Path t.store p i := by
  obtain ⟨l, hlocked, -⟩ := exists_locked h
  obtain ⟨a, hatomic, -⟩ := exists_sim growing_program run_program hlocked
  have hstart :
      (fun i => (mkfs attr i).map Extent.name) = fun i => if i = 1 then some [] else none := by
    funext i
    unfold mkfs
    split <;> rfl
  rw [hstart] at hatomic
  obtain ⟨t, hrun, hsim⟩ := exists_tree hplain hnodup hatomic
  refine ⟨t, hrun, fun i hi => ?_⟩
  obtain ⟨p, hp⟩ := hsim.rooted.reached i hi
  exact ⟨p, hp, fun q hq => hsim.rooted.path_unique hq hp⟩

/-- Two clients create the same name at the same time. One of them is told that it exists, looks it
up and finds the file of the other. -/
theorem yfs_tree_same_name :
    let a : YfsCall := .create 1 [97] true 5
    let b : YfsCall := .create 1 [97] true 6
    let l : YfsCall := .lookup 1 [97] 0
    ∃ τ s t, (fsSystem (mkfs {})).Run τ s ∧ numbers τ = [0x80000005, 0x80000006] ∧
      τ = [.called ("c1", 0) a, .called ("c2", 0) b,
        .returned ("c2", 0) b (.create .exist none),
        .returned ("c1", 0) a (.create .ok (some 0x80000005)),
        .called ("c2", 0) l, .returned ("c2", 0) l (.lookup true (some 0x80000005))] ∧
      (atomicSystem (fun (c : YfsCall) t => c.spec t) Tree.initial).Run τ t := by
  intro a b l
  let c1 : Act := ("c1", 0)
  let c2 : Act := ("c2", 0)
  let lock : Act → FsAction := fun a => .step a (.lock a)
  let start : Act → Extents.Op → FsAction := fun a op => .step a (.start a op 9)
  let rpc : Act → List FsAction := fun a => [.step a (.serve a 9), .step a (.finish a 9)]
  let buf : Bytes := [50, 49, 52, 55, 52, 56, 51, 54, 53, 51, 47, 97, 47]
  let acts : List FsAction :=
    [.call c1 a, .call c2 b, lock c1, lock c1, lock c1, start c1 .get] ++ rpc c1 ++
    -- `c1` has found nothing and puts, and `c2` comes to ask for the lock
    [lock c1, lock c1, lock c1, start c1 (.put []), start c1 (.put buf),
      lock c2, lock c2, lock c2, lock c2, lock c1, lock c1, start c1 .flush] ++ rpc c1 ++
    [lock c1, lock c1, lock c1, lock c1, lock c2, lock c2, lock c2, start c2 .get] ++ rpc c2 ++
    [lock c2, .ret c2, .ret c1, .call c2 l, lock c2, start c2 .get, lock c2, .ret c2]
  let τ₀ : List FsEvent := [.called c1 a, .called c2 b, .returned c2 b (.create .exist none),
    .returned c1 a (.create .ok (some 0x80000005)), .called c2 l,
    .returned c2 l (.lookup true (some 0x80000005))]
  obtain ⟨τ, s, hrun, hτ⟩ := System.exists_run (S := fsSystem (mkfs {}))
    (s := ⟨fun eid => ⟨.initial, fun _ => none, mkfs {} eid, fun _ => .idle⟩, fun _ => none⟩)
    (p := fun τ _ => τ = τ₀) acts ⟨fun _ => rfl, fun _ => rfl⟩ (by decide +kernel)
  have hname : PlainName [97] := ⟨by decide, 97, by decide, by decide⟩
  have hplain : ∀ u c, .called u c ∈ τ → c.Plain := by
    intro u c hu
    simp only [hτ, τ₀, List.mem_cons, TxnEvent.called.injEq, reduceCtorEq, false_or,
      List.not_mem_nil, or_false] at hu
    rcases hu with ⟨-, rfl⟩ | ⟨-, rfl⟩ | ⟨-, rfl⟩ <;> exact hname
  obtain ⟨t, ht, -⟩ := yfs_tree hrun hplain (by rw [hτ]; decide)
  exact ⟨τ, s, t, hrun, by rw [hτ]; decide, hτ, ht⟩

end Yfs.Fs
