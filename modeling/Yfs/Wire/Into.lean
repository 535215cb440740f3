import Yfs.Wire.Decode

/-!
# Decoding the result of a call

`call_m` reads the reply into a variable of its caller, which may hold anything. `getInto` is `>>` into
a variable that holds a value. Numbers and maps are overwritten, a string is replaced where its bytes
are there, and a vector is not cleared: what is read is appended to what it holds. The elements of a
vector and the entries of a map are read into fresh variables, at every depth.

So a decoded result depends on what the variable held exactly if the result is a vector
(`callM_eq_iff`), as when a list is read twice into one variable (`callM_appends`).
-/

namespace Yfs.Wire

open Yfs.Lib
open Yfs.Rpc (Bytes)

namespace Get

/-- `unmarshall::rawbytes` into the string `ss`. -/
def rawbytesInto (ss : Bytes) (n : UInt32) : Get Bytes := fun u =>
  -- `(_ind+n) > (unsigned)_sz`, where the sum may wrap around
  if u.buf.length < (u.ind + n.toNat) % 2 ^ 32 then some (ss, { u with ok := false })
  else if u.ind + n.toNat ≤ u.buf.length then
    some ((u.buf.drop u.ind).take n.toNat, { u with ind := u.ind + n.toNat })
  else none

/-- The rest of `operator>>` into the string `ss` when the size `n` was read. -/
def rawbytesIntoIfOk (ss : Bytes) (n : UInt32) : Get Bytes := fun u =>
  if u.ok then rawbytesInto ss n u else some (ss, u)

end Get

/-- `operator>>` into a variable that holds a value. -/
def getInto : (t : Ty) → t.Val → Get t.Val
  | .bool, _ => get .bool
  | .char, _ => get .char
  | .uchar, _ => get .uchar
  | .short, _ => get .short
  | .ushort, _ => get .ushort
  | .int, _ => get .int
  | .uint, _ => get .uint
  | .ulonglong, _ => get .ulonglong
  | .string, ss => do
      let n ← Get.word
      Get.rawbytesIntoIfOk ss n
  | .attr, _ => get .attr
  | .vector c, (v : List c.Val) => do
      let n ← Get.word
      -- `v.push_back(z)` for each element, without `v.clear()`
      intoM (get c) (fun (v : List c.Val) z => v ++ [z]) n.toNat v
  | .map a b, _ => do
      let n ← Get.word
      -- `d.clear()`, then `d[a] = b` for each entry
      intoM (pairM (get a) (get b)) (fun (d : SortedMap a.Val b.Val) p => d.insert p.1 p.2) n.toNat
        SortedMap.empty

/-- The rest of `rpcc::call_m` when the reply is there: `u >> r`, and `VERIFY(0)` unless `okdone`. -/
def callM (t : Ty) (r : t.Val) (buf : Bytes) : Option t.Val := do
  let (x, u) ← getInto t r (args buf)
  if u.okdone then return x else none

/-! ## What is left in the variable -/

/-- What is left in a variable that held `old` when `new` was decoded. -/
def left : (t : Ty) → (old new : t.Val) → t.Val
  | .vector _, v, w => List.append v w
  | _, _, w => w

/-- `g'` does what `g` does and gives `f` of what `g` gives, but for the value where the flag is
cleared. -/
def Leaves {α : Type} (f : α → α) (g g' : Get α) : Prop :=
  ∀ u, (g u = none ∧ g' u = none) ∨
    ∃ x x' u', g u = some (x, u') ∧ g' u = some (x', u') ∧ (u'.ok = true → x' = f x)

variable {α β : Type} {f : α → α} {g : Get α} {g' : Get α}

theorem Leaves.map (g : Get α) (f : α → α) : Leaves f g (f <$> g) := by
  intro u
  have h : (f <$> g) u = (g u).map fun p => (f p.1, p.2) := by
    cases hg : g u <;> simp [Functor.map, StateT.map, hg, bind, pure]
  rw [h]
  cases hg : g u with
  | none => exact .inl ⟨rfl, rfl⟩
  | some p => exact .inr ⟨p.1, f p.1, p.2, rfl, rfl, fun _ => rfl⟩

theorem Leaves.refl (g : Get α) : Leaves id g g := by
  have h := Leaves.map g id
  rwa [id_map] at h

/-- What is read before the variable is touched. -/
theorem Leaves.bind {k : Get β} {g g' : β → Get α} (h : ∀ y, Leaves f (g y) (g' y)) :
    Leaves f (k >>= g) (k >>= g') := by
  intro u
  have hrun : ∀ g : β → Get α, (k >>= g) u = (k u).bind fun p => g p.1 p.2 := fun _ => rfl
  rw [hrun, hrun]
  cases k u with
  | none => exact .inl ⟨rfl, rfl⟩
  | some p => exact h p.1 p.2

theorem leaves_string (ss : Bytes) (n : UInt32) :
    Leaves id (Get.rawbytesIfOk n) (Get.rawbytesIntoIfOk ss n) := by
  intro u
  unfold Get.rawbytesIfOk Get.rawbytesIntoIfOk
  by_cases hok : u.ok = true
  · rw [if_pos hok, if_pos hok]
    unfold Get.rawbytes Get.rawbytesInto
    by_cases hlen : u.buf.length < (u.ind + n.toNat) % 2 ^ 32
    · -- the string is kept, and the flag cleared
      rw [if_pos hlen, if_pos hlen]
      exact .inr ⟨_, _, _, rfl, rfl, fun h => absurd h Bool.false_ne_true⟩
    · rw [if_neg hlen, if_neg hlen]
      by_cases hin : u.ind + n.toNat ≤ u.buf.length
      · rw [if_pos hin]
        exact .inr ⟨_, _, _, rfl, rfl, fun _ => rfl⟩
      · rw [if_neg hin]
        exact .inl ⟨rfl, rfl⟩
  · rw [if_neg hok, if_neg hok]
    exact .inr ⟨_, _, _, rfl, rfl, fun h => absurd h hok⟩

theorem foldl_push {γ : Type} (v l : List γ) : l.foldl (fun v z => v ++ [z]) v = v ++ l := by
  induction l generalizing v with
  | nil => simp
  | cons z l ih => simp [ih]

/-- A vector is extended. -/
theorem intoM_push {γ : Type} (g : Get γ) (n : Nat) (v : List γ) :
    intoM g (fun v z => v ++ [z]) n v = (fun w => v ++ w) <$> timesM g n := by
  rw [intoM_eq]
  simp only [foldl_push]

/-- A map is cleared first. -/
theorem intoM_insert {κ γ : Type} [LinearOrder κ] (g : Get (κ × γ)) (n : Nat) :
    intoM g (fun d p => d.insert p.1 p.2) n SortedMap.empty =
      (do let l ← timesM g n; return SortedMap.ofList l) := by
  rw [intoM_eq, map_eq_pure_bind]
  rfl

/-- What a fresh variable holds: a string or a vector is empty, anything else is arbitrary. -/
def Fresh : (t : Ty) → t.Val → Prop
  | .string, s => s = ([] : Bytes)
  | .vector c, v => v = ([] : List c.Val)
  | _, _ => True

/-- `get` is `>>` into a fresh variable. -/
theorem getInto_fresh : (t : Ty) → (r : t.Val) → Fresh t r → getInto t r = get t
  | .bool, _, _ | .char, _, _ | .uchar, _, _ | .short, _, _ | .ushort, _, _ | .int, _, _ | .uint, _, _
  | .ulonglong, _, _ | .attr, _, _ => rfl
  | .string, _, rfl => rfl
  | .vector c, _, rfl => by
      have h (n : Nat) := intoM_push (get c) n []
      simp only [List.nil_append, id_map'] at h
      exact congrArg (Get.word >>= ·) (funext fun n => h n.toNat)
  | .map a b, _, _ =>
      congrArg (Get.word >>= ·) (funext fun n => intoM_insert (pairM (get a) (get b)) n.toNat)

/-- Reading into a variable leaves what is read in its place, or behind it if it is a vector. -/
theorem leaves_getInto : (t : Ty) → (r : t.Val) → Leaves (left t r) (get t) (getInto t r)
  | .bool, _ | .char, _ | .uchar, _ | .short, _ | .ushort, _ | .int, _ | .uint, _ | .ulonglong, _
  | .attr, _ => Leaves.refl _
  | .string, ss => Leaves.bind (leaves_string ss)
  | .vector c, (v : List c.Val) => Leaves.bind fun n => by
      have h := Leaves.map (timesM (get c) n.toNat) fun w => v ++ w
      rwa [← intoM_push] at h
  | .map a b, d => by
      rw [getInto_fresh (.map a b) d trivial]
      exact Leaves.refl _

/-- The result that a reply holds, if it holds one of type `t`. -/
def result (t : Ty) (buf : Bytes) : Option t.Val := do
  let (x, u) ← get t (args buf)
  if u.okdone then return x else none

theorem callM_eq (t : Ty) (r : t.Val) (buf : Bytes) :
    callM t r buf = (result t buf).map (left t r) := by
  unfold callM result
  obtain ⟨hg, hg'⟩ | ⟨x, x', u, hg, hg', hx⟩ := leaves_getInto t r (args buf)
  · rw [hg, hg']
    rfl
  · rw [hg, hg']
    show (if u.okdone then some x' else none) = (if u.okdone then some x else none).map (left t r)
    by_cases hdone : u.okdone = true
    · have hok : u.ok = true := (Bool.and_eq_true _ _ ▸ hdone : _ ∧ _).1
      rw [if_pos hdone, if_pos hdone, hx hok]
      rfl
    · rw [if_neg hdone, if_neg hdone]
      rfl

/-- A variable that is not a vector is overwritten. -/
theorem left_of_ne_vector {t : Ty} (h : ∀ c, t ≠ .vector c) (r x : t.Val) : left t r x = x := by
  cases t with
  | vector c => exact absurd rfl (h c)
  | _ => rfl

/-- Two variables get the same from a reply if both overwrite what they hold, if they hold the same,
or if the reply does not decode. -/
theorem callM_eq_iff (t : Ty) (buf : Bytes) (r r' : t.Val) :
    callM t r buf = callM t r' buf ↔
      ((∃ c, t = .vector c) → (∃ x, result t buf = some x) → r = r') := by
  rw [callM_eq, callM_eq]
  constructor
  · rintro h ⟨c, rfl⟩ ⟨x, hx⟩
    rw [hx] at h
    -- the same elements are read behind both values
    exact List.append_cancel_right (Option.some.inj h)
  · intro h
    by_cases hvec : ∃ c, t = .vector c
    · cases hres : result t buf with
      | none => rfl
      | some x => rw [h hvec ⟨x, hres⟩]
    · have hne : ∀ c, t ≠ .vector c := fun c hc => hvec ⟨c, hc⟩
      rw [funext (left_of_ne_vector hne r), funext (left_of_ne_vector hne r')]

/-- A list of one number, read into a variable that holds it already and into an empty one. -/
theorem callM_appends :
    let x : UInt32 := 7
    let buf : Bytes := List.replicate rpcHeaderSz 0 ++ encode (.vector .uint) [x]
    callM (.vector .uint) [] buf = some [x] ∧ callM (.vector .uint) [x] buf = some [x, x] :=
  ⟨rfl, rfl⟩

end Yfs.Wire
