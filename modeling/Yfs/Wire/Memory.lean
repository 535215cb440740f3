import Yfs.Wire.Decode

/-!
# Decoding in bounded memory

The loop that reads a vector runs as often as the size in front of the vector says, and never looks at
`ok`: when the message is over it goes on to push elements that are not there. Here the elements of
vectors take memory, of which there is a limit, and `push_back` throws `std::bad_alloc` where it is
reached. (Strings are copied from the message and take no more than the message does. What a vector
reserves beyond its elements is not counted.)

A handler should call its method exactly if the message is the encoding of arguments of the right
types, and answer `unmarshal_args_failure` otherwise; and it should read nothing but the message
(`DecodesExactly`). Two things stand in the way, and nothing else does (`decodesExactly_iff`). The size
of a string may take its end to 2³² or beyond, and then passes the check in `rawbytes`
(`decode_wild_size`). And the sizes of vectors may ask for more elements than there is memory for
(`decode_huge_size`).
-/

namespace Yfs.Wire

open Yfs.Lib
open Yfs.Rpc (Bytes intBody)

/-- The memory for the elements of vectors: how much there is, and how much an element takes. -/
structure Memory where
  room : Nat
  sizeof : Ty → Nat

/-- `>>`, with the memory that is taken. `none` says that a byte outside of the message is accessed or
that `std::bad_alloc` is thrown. -/
abbrev Alloc := StateT Nat Get

namespace Memory

/-- `push_back` of an element of type `c`. -/
def pushBack (M : Memory) (c : Ty) : Alloc Unit := fun taken =>
  if taken + M.sizeof c ≤ M.room then pure ((), taken + M.sizeof c) else fun _ => none

/-- `operator>>` into a fresh variable. An argument contains no map. -/
def get (M : Memory) : (t : Ty) → Alloc t.Val
  | .vector c => do
      let n ← (Get.word : Get UInt32)
      timesM (do let z ← M.get c; M.pushBack c; return z) n.toNat
  | t => liftM (Wire.get t)

/-- `fn` of a handler for arguments of types `ts`, which calls `meth`. -/
def fn (M : Memory) (ts : List Ty) (meth : List Item → Int32) (u : Unmarshall) :
    Option FnResult := do
  let ((vs, _), u) ← itemsM M.get ts 0 u
  if !u.okdone then return { ret := Rpc.unmarshalArgsFailure, called := none }
  return { ret := meth vs, called := some vs }

/-- The handler reads only the message and has the memory it needs; it calls the method with `vs`
exactly if they are the arguments that the message encodes; and without such arguments it fails and
calls nothing. -/
def DecodesExactly (M : Memory) (ts : List Ty) (buf : Bytes) : Prop :=
  ∀ meth : List Item → Int32,
    (∃ r, M.fn ts meth (args buf) = some r) ∧
    (∀ vs, M.fn ts meth (args buf) = some { ret := meth vs, called := some vs } ↔
      Encodes ts (buf.drop rpcHeaderSz) vs) ∧
    ((¬ ∃ vs, Encodes ts (buf.drop rpcHeaderSz) vs) →
      M.fn ts meth (args buf) = some { ret := Rpc.unmarshalArgsFailure, called := none })

end Memory

/-! ## The memory that a message asks for -/

/-- The end of a message, whether nothing was missing before it, and the memory taken before it. -/
structure Tail where
  bytes : Bytes
  ok : Bool
  taken : Nat

abbrev Walk := StateM Tail

namespace Walk

/-- A byte. One that is missing counts as 0. -/
def byte : Walk UInt8 := fun s =>
  match s.bytes with
  | [] => (0, { s with ok := false })
  | b :: bs => (b, { s with bytes := bs })

def word : Walk UInt32 := do
  let a ← byte
  let b ← byte
  let c ← byte
  let d ← byte
  return Lib.word a b c d

/-- The characters of a string. They are passed only if they are all there and nothing was missing
before them. -/
def chars (n : Nat) : Walk Unit := modify fun s =>
  if n ≤ s.bytes.length ∧ s.ok then { s with bytes := s.bytes.drop n } else { s with ok := false }

/-- An element of type `c`. -/
def element (M : Memory) (c : Ty) : Walk Unit :=
  modify fun s => { s with taken := s.taken + M.sizeof c }

/-- The way past a value of an argument type. -/
def past (M : Memory) : Ty → Walk Unit
  | .bool | .char | .uchar => do let _ ← byte
  | .short | .ushort => do let _ ← byte; let _ ← byte
  | .int | .uint => do let _ ← word
  | .ulonglong => do let _ ← word; let _ ← word
  | .string => do let n ← word; chars n.toNat
  | .attr => do let _ ← word; let _ ← word; let _ ← word; let _ ← word
  | .vector c => do
      let n ← word
      let _ ← timesM (do past M c; element M c) n.toNat
  | .map _ _ => pure ()

end Walk

/-- The memory that vectors take when arguments of types `ts` are read from the message `buf`. -/
def Memory.taken (M : Memory) (ts : List Ty) (buf : Bytes) : Nat :=
  (ts.forM (Walk.past M) ⟨buf.drop rpcHeaderSz, rpcHeaderSz ≤ buf.length, 0⟩).2.taken

/-! ## Decoding takes the memory that the message asks for -/

variable {α β α' β' : Type} {M : Memory} {R : α → β → Prop} {R' : α' → β' → Prop}

/-- Where a decoder is in its message. -/
def Unmarshall.tail (u : Unmarshall) (taken : Nat) : Tail := ⟨u.buf.drop u.ind, u.ok, taken⟩

/-- While nothing is missing, the position is inside of the message. -/
def Unmarshall.Inside (u : Unmarshall) : Prop := u.ok = true → u.ind ≤ u.buf.length

/-- `g` does what `f` does, as long as the memory that `w` takes is there. -/
def Within (M : Memory) (R : α → β → Prop) (g : Alloc α) (f : Get α) (w : Walk β) : Prop :=
  ∀ (u : Unmarshall) (taken : Nat), u.Inside →
    match f u with
    | none => taken ≤ M.room → g taken u = none
    | some (x, u') => ∃ y taken', w (u.tail taken) = (y, u'.tail taken') ∧ R x y ∧ u'.Inside ∧
        taken ≤ taken' ∧
        (taken ≤ M.room → g taken u = if taken' ≤ M.room then some ((x, taken'), u') else none)

theorem within_pure {x : α} {y : β} (h : R x y) : Within M R (pure x) (pure x) (pure y) :=
  fun _ taken hin => ⟨y, taken, rfl, h, hin, le_rfl, fun hroom => (if_pos hroom).symm⟩

theorem Within.bind {g : Alloc α} {f : Get α} {w : Walk β} {g' : α → Alloc α'} {f' : α → Get α'}
    {w' : β → Walk β'} (h : Within M R g f w)
    (h' : ∀ x y, R x y → Within M R' (g' x) (f' x) (w' y)) :
    Within M R' (g >>= g') (f >>= f') (w >>= w') := by
  intro u taken hin
  have h := h u taken hin
  have hf : (f >>= f') u = (f u).bind fun p => f' p.1 p.2 := rfl
  have hg : (g >>= g') taken u = (g taken u).bind fun p => g' p.1.1 p.1.2 p.2 := rfl
  have hw : (w >>= w') (u.tail taken) = w' (w (u.tail taken)).1 (w (u.tail taken)).2 := rfl
  rw [hf, hg, hw]
  cases hx : f u with
  | none =>
      rw [hx] at h
      exact fun hroom => by rw [h hroom]; rfl
  | some p =>
      obtain ⟨x, u₁⟩ := p
      rw [hx] at h
      obtain ⟨y, taken₁, hwalk, hR, hin₁, hle, hrun⟩ := h
      have h' := h' x y hR u₁ taken₁ hin₁
      rw [hwalk]
      simp only [Option.bind_some]
      cases hx' : f' x u₁ with
      | none =>
          rw [hx'] at h'
          intro hroom
          rw [hrun hroom]
          split_ifs with hroom₁
          · exact h' hroom₁
          · rfl
      | some q =>
          obtain ⟨x', u₂⟩ := q
          rw [hx'] at h'
          obtain ⟨y', taken₂, hwalk', hR', hin₂, hle', hrun'⟩ := h'
          refine ⟨y', taken₂, hwalk', hR', hin₂, hle.trans hle', fun hroom => ?_⟩
          rw [hrun hroom]
          by_cases hroom₁ : taken₁ ≤ M.room
          · rw [if_pos hroom₁]
            exact hrun' hroom₁
          · -- what is taken later does not bring memory back
            rw [if_neg hroom₁, if_neg fun h => hroom₁ (hle'.trans h)]
            rfl

theorem Within.discard {g : Alloc α} {f : Get α} {w : Walk β} (h : Within M R g f w) :
    Within M (fun _ _ => True) g f (do let _ ← w) := by
  rw [← bind_pure g, ← bind_pure f]
  exact h.bind fun _ _ _ => within_pure trivial

theorem Within.timesM {g : Alloc α} {f : Get α} {w : Walk β} (h : Within M R g f w) (n : Nat) :
    Within M (fun _ _ => True) (timesM g n) (timesM f n) (timesM w n) := by
  induction n with
  | zero => exact within_pure trivial
  | succ n ih => exact h.bind fun _ _ _ => ih.bind fun _ _ _ => within_pure trivial

/-- What is read without memory. -/
theorem Within.liftBind {f : Get α} {w : Walk β} {f' : α → Get α'} {w' : β → Walk β'}
    (h : Within M R (liftM f) f w) (h' : ∀ x y, R x y → Within M R' (liftM (f' x)) (f' x) (w' y)) :
    Within M R' (liftM (f >>= f')) (f >>= f') (w >>= w') := by
  have hlift : (liftM (f >>= f') : Alloc α') = liftM f >>= fun x => liftM (f' x) := by
    simp
  rw [hlift]
  exact h.bind h'

theorem within_byte :
    Within M (fun x c => x = Get.signExtend c) (liftM Get.rawbyte) Get.rawbyte Walk.byte := by
  intro u taken hin
  have hlift : (liftM Get.rawbyte : Alloc UInt32) taken u =
      (Get.rawbyte u).bind fun p => some ((p.1, taken), p.2) := rfl
  rw [hlift]
  cases hc : u.buf[u.ind]? with
  | none =>
      have hdrop : u.buf.drop u.ind = [] := List.drop_eq_nil_of_le (List.getElem?_eq_none_iff.mp hc)
      simp only [Get.rawbyte, hc]
      refine ⟨0, taken, ?_, rfl, fun h => absurd h Bool.false_ne_true, le_rfl, fun hroom => ?_⟩
      · simp [Walk.byte, Unmarshall.tail, hdrop]
      · rw [if_pos hroom]
        rfl
  | some c =>
      obtain ⟨hlt, rfl⟩ := List.getElem?_eq_some_iff.mp hc
      simp only [Get.rawbyte, hc]
      refine ⟨u.buf[u.ind], taken, ?_, rfl, fun _ => hlt, le_rfl, fun hroom => ?_⟩
      · simp only [Walk.byte, Unmarshall.tail]
        rw [List.drop_eq_getElem_cons hlt]
      · rw [if_pos hroom]
        rfl

theorem within_word16 : Within M (fun _ _ => True) (liftM Get.word16) Get.word16
    (do let _ ← Walk.byte; let _ ← Walk.byte) :=
  within_byte.liftBind fun _ _ _ => within_byte.liftBind fun _ _ _ => within_pure trivial

theorem within_word : Within M (fun x y => x = y) (liftM Get.word) Get.word Walk.word :=
  within_byte.liftBind fun _ a ha => within_byte.liftBind fun _ b hb =>
    within_byte.liftBind fun _ c hc => within_byte.liftBind fun _ d hd => by
      subst ha hb hc hd
      simp only [signExtend_and]
      exact within_pure rfl

theorem within_chars (n : UInt32) :
    Within M (fun _ _ => True) (liftM (Get.rawbytesIfOk n)) (Get.rawbytesIfOk n)
      (Walk.chars n.toNat) := by
  intro u taken hin
  have hlift : (liftM (Get.rawbytesIfOk n) : Alloc Bytes) taken u =
      (Get.rawbytesIfOk n u).bind fun p => some ((p.1, taken), p.2) := rfl
  have hwalk : Walk.chars n.toNat (u.tail taken) = ((),
      if n.toNat ≤ (u.buf.drop u.ind).length ∧ u.ok = true
      then ⟨(u.buf.drop u.ind).drop n.toNat, u.ok, taken⟩
      else ⟨u.buf.drop u.ind, false, taken⟩) := rfl
  rw [hlift, hwalk, List.length_drop]
  unfold Get.rawbytesIfOk Get.rawbytes
  have hmod := Nat.mod_le (u.ind + n.toNat) (2 ^ 32)
  by_cases hok : u.ok = true
  · have hind := hin hok
    rw [if_pos hok]
    by_cases hlong : u.buf.length < (u.ind + n.toNat) % 2 ^ 32
    · rw [if_pos hlong, if_neg (by omega)]
      exact ⟨(), taken, rfl, trivial, fun h => absurd h Bool.false_ne_true, le_rfl,
        fun hroom => (if_pos hroom).symm⟩
    · rw [if_neg hlong]
      by_cases hlen : u.ind + n.toNat ≤ u.buf.length
      · rw [if_pos hlen, if_pos ⟨by omega, hok⟩, List.drop_drop]
        exact ⟨(), taken, rfl, trivial, fun _ => hlen, le_rfl, fun hroom => (if_pos hroom).symm⟩
      · rw [if_neg hlen]
        exact fun _ => rfl
  · rw [if_neg hok, if_neg fun h => hok h.2]
    refine ⟨(), taken, ?_, trivial, hin, le_rfl, fun hroom => (if_pos hroom).symm⟩
    simp [Unmarshall.tail, hok]

theorem within_element {z : α} (c : Ty) :
    Within M (fun _ _ => True) (do M.pushBack c; return z) (pure z) (Walk.element M c) := by
  intro u taken hin
  refine ⟨(), taken + M.sizeof c, rfl, trivial, hin, by omega, fun hroom => ?_⟩
  change ((M.pushBack c taken u).bind fun p => some ((z, p.1.2), p.2)) = _
  unfold Memory.pushBack
  split_ifs <;> rfl

/-- `>>` in bounded memory. -/
theorem within_get : (t : Ty) → t.isArg = true →
    Within M (fun _ _ => True) (M.get t) (get t) (Walk.past M t)
  | .char, _ | .uchar, _ => within_byte.liftBind fun _ _ _ => within_pure trivial
  | .short, _ => within_word16.liftBind fun _ _ _ => within_pure trivial
  | .ushort, _ => within_word16
  | .int, _ => within_word.liftBind fun _ _ _ => within_pure trivial
  | .uint, _ => within_word.discard
  | .ulonglong, _ => within_word.liftBind fun _ _ _ => within_word.liftBind fun _ _ _ =>
      within_pure trivial
  | .string, _ => within_word.liftBind fun n _ h => h ▸ within_chars n
  | .vector c, hc => by
      have hpush : Within M (fun _ _ => True) (do let z ← M.get c; M.pushBack c; return z) (get c)
          (do Walk.past M c; Walk.element M c) := by
        rw [← bind_pure (get c)]
        exact (within_get c hc).bind fun z _ _ => within_element c
      exact within_word.bind fun n _ h => h ▸ (hpush.timesM n.toNat).discard

theorem within_items {ts : List Ty} (hts : ∀ t ∈ ts, t.isArg = true) :
    Within M (fun _ _ => True) (itemsM M.get ts) (itemsM get ts) (ts.forM (Walk.past M)) := by
  induction ts with
  | nil => exact within_pure trivial
  | cons t ts ih =>
      refine (within_get t (hts t List.mem_cons_self)).bind fun v _ _ => ?_
      rw [← bind_pure (ts.forM (Walk.past M))]
      exact (ih fun t ht => hts t (List.mem_cons_of_mem _ ht)).bind fun _ _ _ => within_pure trivial

variable {ts : List Ty} {buf : Bytes}

/-- The handler does what it would do with memory for anything, if there is enough of it. -/
theorem Memory.fn_eq (hts : ∀ t ∈ ts, t.isArg = true) (meth : List Item → Int32) :
    M.fn ts meth (args buf) =
      if M.taken ts buf ≤ M.room then Wire.fn ts meth (args buf) else none := by
  have hin : (args buf).Inside := fun h => of_decide_eq_true h
  have h := within_items hts (args buf) 0 hin (M := M)
  unfold Memory.fn Wire.fn
  cases hx : itemsM Wire.get ts (args buf) with
  | none =>
      rw [hx] at h
      rw [h (Nat.zero_le _)]
      split_ifs <;> rfl
  | some p =>
      rw [hx] at h
      obtain ⟨_, taken, hwalk, -, -, -, hrun⟩ := h
      have htaken : M.taken ts buf = taken := congrArg (fun s => s.2.taken) hwalk
      rw [hrun (Nat.zero_le _), htaken]
      split_ifs <;> rfl

/-- The handler decodes exactly the encodings of its arguments if and only if no string has a wild
size and there is memory for the vectors. -/
theorem decodesExactly_iff (M : Memory) (hlen : buf.length ≤ maxPdu) (hne : ts ≠ [])
    (hts : ∀ t ∈ ts, t.isArg = true) :
    M.DecodesExactly ts buf ↔
      itemsM (parse buf.length) ts (buf.drop rpcHeaderSz) ≠ .error .wild ∧
        M.taken ts buf ≤ M.room := by
  have hlt : buf.length < 2 ^ 32 := hlen.trans_lt (by decide)
  have hfn := fn_spec hlt hne
  constructor
  · intro h
    obtain ⟨r, hr⟩ := (h fun _ => 0).1
    rw [Memory.fn_eq hts] at hr
    split_ifs at hr with hroom
    refine ⟨fun hwild => ?_, hroom⟩
    rw [hfn, hwild] at hr
    cases hr
  · rintro ⟨hwild, hroom⟩ meth
    simp only [encodes_iff hlt hts, Memory.fn_eq hts, if_pos hroom, hfn]
    match hparse : itemsM (parse buf.length) ts (buf.drop rpcHeaderSz) with
    | .ok (vs, []) =>
        refine ⟨⟨_, rfl⟩, fun vs' => ⟨fun h => ?_, fun h => ?_⟩, fun hno => absurd ⟨vs, rfl⟩ hno⟩
        · simp only [Option.some.injEq, FnResult.mk.injEq] at h
          rw [h.2]
        · cases h
          rfl
    | .ok (vs, b :: rest) => simp
    | .error .short => simp
    | .error .wild => exact absurd hparse hwild

/-- Four GiB, where an element takes 32 bytes. -/
def fourGiB : Memory := ⟨2 ^ 32, fun _ => 32⟩

/-- An `unsigned int` and a vector of two strings. -/
theorem decodesExactly_int_strings :
    fourGiB.DecodesExactly [.uint, .vector .string]
      (List.replicate 24 0 ++ [0, 0, 0, 7, 0, 0, 0, 2, 0, 0, 0, 2, 104, 105, 0, 0, 0, 1, 33]) :=
  (decodesExactly_iff fourGiB (by decide) (by simp) (by decide)).mpr
    ⟨fun h => (nomatch h), by decide +kernel⟩

/-- A string with the size 2³² - 1, in a message of 28 bytes: the handler leaves the message, where it
should have failed. -/
theorem decode_wild_size :
    fourGiB.fn [.string] (fun _ => 0) (args (List.replicate 24 0 ++ [255, 255, 255, 255])) = none ∧
      ¬ fourGiB.DecodesExactly [.string] (List.replicate 24 0 ++ [255, 255, 255, 255]) := by
  have hnone : fourGiB.fn [.string] (fun _ => 0)
      (args (List.replicate 24 0 ++ [255, 255, 255, 255])) = none := rfl
  refine ⟨hnone, fun h => ?_⟩
  obtain ⟨r, hr⟩ := (h fun _ => 0).1
  rw [hnone] at hr
  cases hr

/-! ## A vector takes what its size says -/

/-- On the way of `w` at least `k` is taken. -/
def Walk.Takes (k : Nat) (w : Walk β) : Prop := ∀ s, s.taken + k ≤ (w s).2.taken

theorem Walk.Takes.bind {w : Walk β} {w' : β → Walk β'} {k k' : Nat} (h : w.Takes k)
    (h' : ∀ y, (w' y).Takes k') : (w >>= w').Takes (k + k') := by
  intro s
  have hw := h s
  have hw' := h' (w s).1 (w s).2
  change _ ≤ (w' (w s).1 (w s).2).2.taken
  omega

theorem Walk.takes_pure (y : β) : Walk.Takes 0 (pure y) := fun _ => le_rfl

theorem Walk.takes_byte : Walk.byte.Takes 0 := by
  intro s
  unfold Walk.byte
  split <;> exact le_rfl

theorem Walk.takes_word : Walk.word.Takes 0 :=
  takes_byte.bind fun _ => takes_byte.bind fun _ => takes_byte.bind fun _ => takes_byte.bind fun _ =>
    takes_pure _

theorem Walk.takes_chars (n : Nat) : (Walk.chars n).Takes 0 := by
  intro s
  change _ ≤ (if n ≤ s.bytes.length ∧ s.ok = true then _ else _ : Tail).taken
  split_ifs <;> exact le_rfl

theorem Walk.Takes.timesM {w : Walk β} {k : Nat} (h : w.Takes k) (n : Nat) :
    (Lib.timesM w n).Takes (n * k) := by
  induction n with
  | zero =>
      rw [Nat.zero_mul]
      exact takes_pure []
  | succ n ih =>
      rw [Nat.succ_mul, Nat.add_comm]
      exact h.bind fun _ => ih.bind fun _ => takes_pure _

theorem Walk.takes_elements {M : Memory} {c : Ty} (h : (Walk.past M c).Takes 0) (n : Nat) :
    (Lib.timesM (do Walk.past M c; Walk.element M c) n).Takes (n * M.sizeof c) := by
  have helem : (Walk.element M c).Takes (M.sizeof c) := fun _ => le_rfl
  have hone := h.bind fun _ => helem
  rw [Nat.zero_add] at hone
  exact hone.timesM n

/-- Nothing gives memory back. -/
theorem Walk.takes_past (M : Memory) : (t : Ty) → (Walk.past M t).Takes 0
  | .bool | .char | .uchar => takes_byte.bind fun _ => takes_pure _
  | .short | .ushort => takes_byte.bind fun _ => takes_byte.bind fun _ => takes_pure _
  | .int | .uint => takes_word.bind fun _ => takes_pure _
  | .ulonglong => takes_word.bind fun _ => takes_word.bind fun _ => takes_pure _
  | .string => takes_word.bind fun n => takes_chars n.toNat
  | .attr => takes_word.bind fun _ => takes_word.bind fun _ => takes_word.bind fun _ =>
      takes_word.bind fun _ => takes_pure _
  | .vector c => by
      have hrest : ∀ n : UInt32, (do
          let _ ← Lib.timesM (do Walk.past M c; Walk.element M c) n.toNat : Walk Unit).Takes 0 := by
        intro n s
        have h := takes_elements (takes_past M c) n.toNat s
        exact (Nat.le_add_right _ _).trans h
      exact takes_word.bind hrest
  | .map _ _ => takes_pure _

theorem Walk.takes_items (M : Memory) (ts : List Ty) : (ts.forM (Walk.past M)).Takes 0 := by
  induction ts with
  | nil => exact takes_pure _
  | cons t ts ih => exact (takes_past M t).bind fun _ => ih

theorem Walk.word_intBody (n : UInt32) (bs : Bytes) (ok : Bool) (k : Nat) :
    Walk.word ⟨intBody n ++ bs, ok, k⟩ = (n, ⟨bs, ok, k⟩) := by
  change (Lib.word (Lib.byte n 24) (Lib.byte n 16) (Lib.byte n 8) (Lib.byte n 0), _) = _
  rw [word_byte]
  rfl

theorem Walk.le_past_vector (M : Memory) (n : UInt32) (c : Ty) (bs : Bytes) (ok : Bool) :
    n.toNat * M.sizeof c ≤ (Walk.past M (.vector c) ⟨intBody n ++ bs, ok, 0⟩).2.taken := by
  have hpast : ∀ s, (Walk.past M (.vector c) s).2 =
      (Lib.timesM (do Walk.past M c; Walk.element M c : Walk Unit) (Walk.word s).1.toNat
        (Walk.word s).2).2 := fun _ => rfl
  have h := Walk.takes_elements (Walk.takes_past M c) n.toNat ⟨bs, ok, 0⟩
  rw [hpast, Walk.word_intBody]
  exact (Nat.le_add_left _ _).trans h

/-- A vector whose size asks for more than there is: the handler does not come back, whatever the rest
of the message holds. -/
theorem decode_huge_size {header bs : Bytes} {n : UInt32} {c : Ty} {ts : List Ty}
    (hheader : header.length = rpcHeaderSz) (hts : ∀ t ∈ Ty.vector c :: ts, t.isArg = true)
    (hn : M.room < n.toNat * M.sizeof c) (meth : List Item → Int32) :
    M.fn (.vector c :: ts) meth (args (header ++ (intBody n ++ bs))) = none := by
  have htaken : n.toNat * M.sizeof c ≤ M.taken (.vector c :: ts) (header ++ (intBody n ++ bs)) := by
    unfold Memory.taken
    rw [← hheader, List.drop_left]
    exact (Walk.le_past_vector M n c bs _).trans (Walk.takes_items M ts _)
  rw [Memory.fn_eq hts, if_neg (by omega)]

end Yfs.Wire
