import Yfs.Lib.System
import Yfs.Net.Receiver

/-!
# The memory under a PDU that is being read

`readpdu` takes the size of a PDU from the network, allocates a buffer for it, and reads into the
buffer until as many bytes are there. Here the bytes are left out, and the arithmetic is kept: the size
is an `int`, `malloc` and `read` take a `size_t`. `RawConn.readCb` goes on with any size that is not too
large, as the code does.

Every call of `read` stays within the buffer if and only if every size that is not refused is at least
4, the number of bytes that are there when the buffer is allocated (`length_safe_iff`). For such sizes
`Connection.readCb` is what the code does (`readCb_raw`).
-/

namespace Yfs.Net

open Yfs.Lib
open Yfs.Rpc (Bytes readInt)
open Yfs.Wire (maxPdu)

/-- `rpdu_`, with the size of the allocation in place of its bytes. -/
structure RawPdu where
  buf : Option Nat := none
  sz : Int := 0
  solong : Int := 0
  deriving DecidableEq, Repr

structure RawConn where
  dead : Bool := false
  rpdu : RawPdu := {}
  deriving DecidableEq, Repr

/-- What the `read` of the length word returns. -/
inductive LengthRead where
  | word (w : UInt32)
  /-- Fewer than four bytes. -/
  | short
  | eof
  | again
  | failed
  deriving DecidableEq, Repr

inductive ReadEvent where
  /-- A length word was read. -/
  | length (sz : Int)
  /-- `malloc` has failed, and with it `VERIFY(rpdu_.buf)`. -/
  | noMemory
  /-- `read(fd_, rpdu_.buf + rpdu_.solong, count)`. -/
  | read (buf : Option Nat) (sz solong count : Int)
  /-- `got_pdu` is called. -/
  | gotPdu (sz solong : Int)
  deriving DecidableEq, Repr

/-- `ntohl(sz1)` in an `int`. -/
def lengthOf (w : UInt32) : Int := w.toInt32.toInt

/-- An `int` that is passed as a `size_t`. -/
def sizeT (x : Int) : Nat := (x % 2 ^ 64).toNat

/-- `malloc`. No object is larger than `PTRDIFF_MAX`. -/
def malloc (n : Nat) : Option Nat := if n < 2 ^ 63 then some n else none

namespace RawPdu

variable (p : RawPdu)

/-- The second part of `connection::readpdu`. -/
def readBody : ReadResult → Option (RawPdu × Bool)
  | .got n =>
      if 0 < n ∧ n ≤ sizeT (p.sz - p.solong) then some ({ p with solong := p.solong + n }, true)
      else none
  | .again | .eof true => some (p, true)
  | .eof false | .failed => some ({}, false)

/-- The call of `read` in it. -/
def readEvent : ReadEvent := .read p.buf p.sz p.solong (p.sz - p.solong)

/-- `connection::readpdu` when a length word was read. The result is `none` if the process stops. -/
def readLength (sz : Int) (r₂ : ReadResult) : Option (Option (RawPdu × Bool) × List ReadEvent) :=
  if sz > maxPdu then some (some (p, false), [.length sz])
  else if p.buf ≠ none then some (none, [.length sz])
  else
    match malloc (sizeT (sz + 4)) with
    | none => some (none, [.length sz, .noMemory])
    | some n =>
        let p : RawPdu := { buf := some n, sz, solong := 4 }
        (p.readBody r₂).map fun r => (some r, [.length sz, p.readEvent])

/-- `connection::readpdu`. -/
def readpdu (r₁ : LengthRead) (r₂ : ReadResult) :
    Option (Option (RawPdu × Bool) × List ReadEvent) :=
  if p.sz ≠ 0 then (p.readBody r₂).map fun r => (some r, [p.readEvent])
  else
    match r₁ with
    | .short | .eof | .failed => some (some (p, false), [])
    | .again => some (none, [])
    | .word w => p.readLength (lengthOf w) r₂

end RawPdu

/-- The beginning of `connection::read_cb`: more of the PDU is read, unless all of it is there. -/
def RawConn.readMore (c : RawConn) (r₁ : LengthRead) (r₂ : ReadResult) :
    Option (Option (RawPdu × Bool) × List ReadEvent) :=
  if c.rpdu.buf = none ∨ c.rpdu.solong < c.rpdu.sz then c.rpdu.readpdu r₁ r₂
  else some (some (c.rpdu, true), [])

/-- The end of `connection::read_cb`. -/
def RawConn.offer (c : RawConn) (accept : Bool) : RawConn × List ReadEvent :=
  if c.rpdu.buf ≠ none ∧ c.rpdu.sz = c.rpdu.solong then
    (if accept then { c with rpdu := {} } else c, [.gotPdu c.rpdu.sz c.rpdu.solong])
  else (c, [])

/-- `connection::read_cb`. -/
def RawConn.readCb (c : RawConn) (r₁ : LengthRead) (r₂ : ReadResult) (accept : Bool) :
    Option (Option RawConn × List ReadEvent) :=
  if c.dead then some (some c, [])
  else do
    let (r, es) ← c.readMore r₁ r₂
    match r with
    | none => return (none, es)
    | some (p, succ) =>
        let (c, es') := { dead := !succ, rpdu := p : RawConn }.offer accept
        return (some c, es ++ es')

structure ReadAction where
  length : LengthRead
  body : ReadResult
  accept : Bool
  deriving DecidableEq, Repr

/-- The calls of `read_cb` on a connection, until the process stops. -/
def rawSystem : System (Option RawConn) ReadAction ReadEvent where
  init s := s = some {}
  next s a := s.bind fun c => c.readCb a.length a.body a.accept

/-! ## What is safe -/

/-- A call of `read` stays within the buffer, and `got_pdu` is called with a whole PDU. -/
def ReadEvent.Safe : ReadEvent → Prop
  | .length _ => True
  | .noMemory => False
  | .read buf sz solong count =>
      4 ≤ solong ∧ solong ≤ sz ∧ 0 ≤ count ∧ ∃ n : Nat, buf = some n ∧ solong + count ≤ n
  | .gotPdu sz solong => solong = sz

/-- A part of a PDU, in a buffer that is large enough for the whole. -/
def RawPdu.Part (p : RawPdu) : Prop :=
  4 ≤ p.solong ∧ p.solong ≤ p.sz ∧ p.sz ≤ maxPdu ∧ ∃ n : Nat, p.buf = some n ∧ p.sz ≤ n

/-- There is no PDU, or a part of one. -/
def RawPdu.Safe (p : RawPdu) : Prop := p = {} ∨ p.Part

/-- Every length word is refused, or covers at least itself. -/
def LengthsOk (τ : List ReadEvent) : Prop :=
  ∀ sz : Int, .length sz ∈ τ → maxPdu < sz ∨ 4 ≤ sz

section
variable {p p' : RawPdu} {c : RawConn} {r₁ : LengthRead} {r₂ : ReadResult} {accept succ : Bool}
  {es τ : List ReadEvent}

theorem lengthsOk_append : LengthsOk (τ ++ es) ↔ LengthsOk τ ∧ LengthsOk es := by
  simp only [LengthsOk, List.mem_append, or_imp, forall_and]

theorem safe_length (sz : Int) : (ReadEvent.length sz).Safe := trivial

theorem lengthsOk_nil : LengthsOk [] := by
  intro sz h
  cases h

theorem lengthsOk_length {sz : Int} :
    LengthsOk (.length sz :: es) ↔ (maxPdu < sz ∨ 4 ≤ sz) ∧ LengthsOk es := by
  simp only [LengthsOk, List.mem_cons, ReadEvent.length.injEq, or_imp, forall_and, forall_eq]

theorem lengthsOk_readEvent : LengthsOk [p.readEvent] := by
  intro sz h
  simp [RawPdu.readEvent] at h

theorem lengthsOk_gotPdu {sz solong : Int} : LengthsOk [.gotPdu sz solong] := by
  intro sz' h
  simp at h

theorem sizeT_eq {x : Int} (h₀ : 0 ≤ x) (h : x < 2 ^ 64) : (sizeT x : Int) = x := by
  unfold sizeT
  omega

theorem RawPdu.Part.readEvent (hp : p.Part) : p.readEvent.Safe := by
  obtain ⟨hmin, hle, -, n, hbuf, hn⟩ := hp
  refine ⟨hmin, hle, by omega, n, hbuf, by omega⟩

theorem RawPdu.Part.readBody (hp : p.Part) (h : p.readBody r₂ = some (p', succ)) : p'.Safe := by
  have hmax : (maxPdu : Int) < 2 ^ 64 := by decide
  unfold RawPdu.readBody at h
  split at h
  · split at h
    · -- `read` gives at most what it was asked for
      rename_i n hn
      cases h
      obtain ⟨hmin, hle, hsz, hbuf⟩ := hp
      have hcount := sizeT_eq (x := p.sz - p.solong) (by omega) (by omega)
      refine .inr ⟨?_, ?_, hsz, hbuf⟩
      · show 4 ≤ p.solong + n
        omega
      · show p.solong + n ≤ p.sz
        omega
    · cases h
  · cases h
    exact .inr hp
  · cases h
    exact .inr hp
  · cases h
    exact .inl rfl
  · cases h
    exact .inl rfl

/-- What a call leaves behind: its events are safe if and only if the length words are good, and then
the buffer is, too. -/
structure Sound (p? : Option RawPdu) (es : List ReadEvent) : Prop where
  events : (∀ e ∈ es, e.Safe) ↔ LengthsOk es
  rpdu : LengthsOk es → ∀ p, p? = some p → p.Safe

/-- No length word is read. -/
theorem Sound.idle (hp : p.Safe) (p? : Option RawPdu) (h : ∀ p', p? = some p' → p' = p) :
    Sound p? [] where
  events := by simp [lengthsOk_nil]
  rpdu _ p' h' := by
    rw [h p' h']
    exact hp

/-- A size that is good gets a buffer that is large enough. -/
theorem part_of_length {sz : Int} (hmin : 4 ≤ sz) (hmax : sz ≤ maxPdu) :
    malloc (sizeT (sz + 4)) = some (sizeT (sz + 4)) ∧
      RawPdu.Part { buf := some (sizeT (sz + 4)), sz, solong := 4 } := by
  have hlt : (maxPdu : Int) + 4 < 2 ^ 63 := by decide
  have hsize := sizeT_eq (x := sz + 4) (by omega) (by omega)
  refine ⟨?_, le_refl (4 : Int), hmin, hmax, _, rfl, ?_⟩
  · unfold malloc
    rw [if_pos (by omega)]
  · show sz ≤ sizeT (sz + 4)
    omega

theorem readLength_sound {r : Option (RawPdu × Bool)} {sz : Int}
    (h : RawPdu.readLength {} sz r₂ = some (r, es)) : Sound (r.map Prod.fst) es := by
  unfold RawPdu.readLength at h
  split at h
  · rename_i hbig
    cases h
    have hok : LengthsOk [.length sz] := lengthsOk_length.mpr ⟨.inl hbig, lengthsOk_nil⟩
    refine ⟨by simp [hok, safe_length], ?_⟩
    intro _ p₁ h₁
    cases h₁
    exact .inl rfl
  · rename_i hbig
    rw [if_neg (by simp)] at h
    by_cases hmin : 4 ≤ sz
    · obtain ⟨hmalloc, hpart⟩ := part_of_length hmin (by omega)
      simp only [hmalloc] at h
      obtain ⟨⟨p', succ⟩, hbody, h⟩ := Option.map_eq_some_iff.mp h
      cases h
      have hok : LengthsOk [.length sz,
          RawPdu.readEvent { buf := some (sizeT (sz + 4)), sz, solong := 4 }] :=
        lengthsOk_length.mpr ⟨.inr hmin, lengthsOk_readEvent⟩
      refine ⟨by simp [hok, hpart.readEvent, safe_length], ?_⟩
      intro _ p₁ h₁
      cases h₁
      exact hpart.readBody hbody
    · -- too small: there is no memory, or `read` is called with a negative count
      have hbad : ∀ es, ¬ LengthsOk (.length sz :: es) := by
        intro es hok
        have := (lengthsOk_length.mp hok).1
        omega
      split at h
      · cases h
        exact ⟨by simp [hbad, ReadEvent.Safe], fun hok => absurd hok (hbad _)⟩
      · obtain ⟨⟨p', succ⟩, hbody, h⟩ := Option.map_eq_some_iff.mp h
        cases h
        refine ⟨?_, fun hok => absurd hok (hbad _)⟩
        simp only [hbad, iff_false, List.forall_mem_cons, not_and_or]
        right
        left
        intro hsafe
        exact hmin hsafe.2.1

/-- What a call of `readpdu` does: it reads on, or it finds no length word, or it finds one. -/
theorem readpdu_cases {r : Option (RawPdu × Bool)} (h : p.readpdu r₁ r₂ = some (r, es)) :
    (p.sz ≠ 0 ∧ ∃ res, p.readBody r₂ = some res ∧ r = some res ∧ es = [p.readEvent]) ∨
    (es = [] ∧ ∀ p', r.map Prod.fst = some p' → p' = p) ∨
    (p.sz = 0 ∧ ∃ sz, p.readLength sz r₂ = some (r, es)) := by
  unfold RawPdu.readpdu at h
  split at h
  · rename_i hsz
    obtain ⟨res, hbody, h⟩ := Option.map_eq_some_iff.mp h
    cases h
    exact .inl ⟨hsz, res, hbody, rfl, rfl⟩
  · rename_i hsz
    right
    cases r₁ with
    | word w => exact .inr ⟨not_not.mp hsz, _, h⟩
    | short | eof | failed | again =>
        cases h
        exact .inl ⟨rfl, by simp⟩

theorem readpdu_sound {r : Option (RawPdu × Bool)} (hp : p.Safe)
    (h : p.readpdu r₁ r₂ = some (r, es)) : Sound (r.map Prod.fst) es := by
  obtain ⟨hsz, ⟨p', succ⟩, hbody, rfl, rfl⟩ | ⟨rfl, hr⟩ | ⟨hsz, sz, hlength⟩ := readpdu_cases h
  · obtain rfl | hpart := hp
    · exact absurd rfl hsz
    · refine ⟨by simp [hpart.readEvent, lengthsOk_readEvent], ?_⟩
      intro _ p₁ h₁
      cases h₁
      exact hpart.readBody hbody
  · exact .idle hp _ hr
  · obtain rfl | ⟨hmin, hle, -⟩ := hp
    · exact readLength_sound hlength
    · omega

/-- A length word that is too large is refused, whatever was read before. -/
theorem readLength_refused {r : Option (RawPdu × Bool)} {sz sz' : Int}
    (h : p.readLength sz' r₂ = some (r, es)) (hmem : .length sz ∈ es) (hbig : maxPdu < sz) :
    ∃ p', r = some (p', false) := by
  unfold RawPdu.readLength at h
  split at h
  · cases h
    exact ⟨_, rfl⟩
  · -- every other outcome has read a length word that is not too large
    rename_i hle
    have hes : ∀ es', .length sz ∈ ReadEvent.length sz' :: es' → .length sz ∈ es' := by
      intro es' hmem
      rcases List.mem_cons.mp hmem with heq | hmem
      · cases heq
        exact absurd hbig hle
      · exact hmem
    split at h
    · cases h
      cases hes _ hmem
    · split at h
      · cases h
        simpa using hes _ hmem
      · obtain ⟨_, -, h⟩ := Option.map_eq_some_iff.mp h
        cases h
        simpa [RawPdu.readEvent] using hes _ hmem

theorem readpdu_refused {r : Option (RawPdu × Bool)} {sz : Int}
    (h : p.readpdu r₁ r₂ = some (r, es)) (hmem : .length sz ∈ es) (hbig : maxPdu < sz) :
    ∃ p', r = some (p', false) := by
  obtain ⟨-, res, -, -, rfl⟩ | ⟨rfl, -⟩ | ⟨-, sz', hlength⟩ := readpdu_cases h
  · simp [RawPdu.readEvent] at hmem
  · cases hmem
  · exact readLength_refused hlength hmem hbig

end

/-! ## Whole runs -/

section
variable {c c' : RawConn} {s : Option RawConn} {r₁ : LengthRead} {r₂ : ReadResult} {accept : Bool}
  {es τ : List ReadEvent}

theorem dead_offer : (c.offer accept).1.dead = c.dead := by
  unfold RawConn.offer
  split
  · cases accept <;> rfl
  · rfl

theorem Sound.offer (h : Sound (some c.rpdu) es) :
    Sound (some (c.offer accept).1.rpdu) (es ++ (c.offer accept).2) := by
  unfold RawConn.offer
  split
  · rename_i hall
    have hok : LengthsOk [.gotPdu c.rpdu.sz c.rpdu.solong] := lengthsOk_gotPdu
    have hsafe : (ReadEvent.gotPdu c.rpdu.sz c.rpdu.solong).Safe := hall.2.symm
    refine ⟨?_, ?_⟩
    · rw [lengthsOk_append, ← h.events]
      simp only [List.forall_mem_append, List.forall_mem_singleton, hok, hsafe]
    · intro hlen p hp
      cases hp
      cases accept with
      | true => exact .inl rfl
      | false => exact h.rpdu (lengthsOk_append.mp hlen).1 _ rfl
  · rw [List.append_nil]
    exact h

/-- What a call of `read_cb` does. -/
theorem readCb_cases (h : c.readCb r₁ r₂ accept = some (s, es)) :
    (c.dead = true ∧ s = some c ∧ es = []) ∨
    ∃ r es₁, (c.rpdu.readpdu r₁ r₂ = some (r, es₁) ∨ r = some (c.rpdu, true) ∧ es₁ = []) ∧
      ((r = none ∧ s = none ∧ es = es₁) ∨
        ∃ p succ, r = some (p, succ) ∧ s = some (RawConn.offer ⟨!succ, p⟩ accept).1 ∧
          es = es₁ ++ (RawConn.offer ⟨!succ, p⟩ accept).2) := by
  unfold RawConn.readCb at h
  by_cases hd : c.dead = true
  · rw [if_pos hd] at h
    cases h
    exact .inl ⟨hd, rfl, rfl⟩
  · rw [if_neg hd] at h
    obtain ⟨⟨r, es₁⟩, hread, h⟩ := Option.bind_eq_some_iff.mp h
    refine .inr ⟨r, es₁, ?_, ?_⟩
    · unfold RawConn.readMore at hread
      split at hread
      · exact .inl hread
      · cases hread
        exact .inr ⟨rfl, rfl⟩
    · cases r with
      | none =>
          cases h
          exact .inl ⟨rfl, rfl, rfl⟩
      | some r =>
          cases h
          exact .inr ⟨r.1, r.2, rfl, rfl, rfl⟩

theorem readCb_sound (hc : c.rpdu.Safe) (h : c.readCb r₁ r₂ accept = some (s, es)) :
    Sound (s.map RawConn.rpdu) es := by
  obtain ⟨-, rfl, rfl⟩ | ⟨r, es₁, hread, hoffer⟩ := readCb_cases h
  · exact .idle hc _ (by simp)
  · have hsound : Sound (r.map Prod.fst) es₁ := by
      obtain hread | ⟨rfl, rfl⟩ := hread
      · exact readpdu_sound hc hread
      · exact .idle hc _ (by simp)
    obtain ⟨rfl, rfl, rfl⟩ | ⟨p, succ, rfl, rfl, rfl⟩ := hoffer
    · exact hsound
    · exact hsound.offer (c := ⟨!succ, p⟩)

/-- A length word that is too large kills the connection. -/
theorem readCb_refused {sz : Int} (h : c.readCb r₁ r₂ accept = some (s, es))
    (hmem : .length sz ∈ es) (hbig : maxPdu < sz) : ∃ c', s = some c' ∧ c'.dead = true := by
  obtain ⟨-, rfl, rfl⟩ | ⟨r, es₁, hread, hoffer⟩ := readCb_cases h
  · cases hmem
  · have hrefused : .length sz ∈ es₁ → ∃ p', r = some (p', false) := by
      intro hmem
      obtain hread | ⟨rfl, rfl⟩ := hread
      · exact readpdu_refused hread hmem hbig
      · cases hmem
    obtain ⟨rfl, rfl, rfl⟩ | ⟨p, succ, rfl, rfl, rfl⟩ := hoffer
    · obtain ⟨p', h'⟩ := hrefused hmem
      cases h'
    · have hmem : .length sz ∈ es₁ := by
        rcases List.mem_append.mp hmem with hmem | hmem
        · exact hmem
        · unfold RawConn.offer at hmem
          split at hmem <;> simp at hmem
      obtain ⟨p', h'⟩ := hrefused hmem
      cases h'
      exact ⟨_, rfl, dead_offer⟩

theorem dead_readCb (hd : c.dead = true) (h : c.readCb r₁ r₂ accept = some (s, es)) :
    s = some c ∧ es = [] := by
  unfold RawConn.readCb at h
  rw [if_pos hd] at h
  cases h
  exact ⟨rfl, rfl⟩

/-- The events of a run are safe if and only if its length words are good. -/
theorem run_sound (h : rawSystem.Run τ s) : Sound (s.map RawConn.rpdu) τ := by
  refine h.invariant (I := fun τ s => Sound (s.map RawConn.rpdu) τ) ?_ ?_
  · intro s hs
    cases hs
    exact .idle (.inl rfl) _ (by simp)
  · intro τ s a s' es ih hn
    obtain ⟨c, rfl, hn⟩ := Option.bind_eq_some_iff.mp hn
    have hstep : LengthsOk τ → Sound (s'.map RawConn.rpdu) es := fun hok =>
      readCb_sound (ih.rpdu hok _ rfl) hn
    refine ⟨?_, ?_⟩
    · rw [List.forall_mem_append, lengthsOk_append, ih.events]
      exact and_congr_right fun hok => (hstep hok).events
    · intro hok
      obtain ⟨hτ, hes⟩ := lengthsOk_append.mp hok
      exact (hstep hτ).rpdu hes

theorem run_refused (h : rawSystem.Run τ s) :
    ∀ sz : Int, .length sz ∈ τ → maxPdu < sz → ∃ c, s = some c ∧ c.dead = true := by
  refine h.invariant (I := fun τ s => ∀ sz : Int, .length sz ∈ τ → maxPdu < sz →
    ∃ c, s = some c ∧ c.dead = true) ?_ ?_
  · intro s hs sz hmem
    cases hmem
  · intro τ s a s' es ih hn sz hmem hbig
    obtain ⟨c, rfl, hn⟩ := Option.bind_eq_some_iff.mp hn
    rcases List.mem_append.mp hmem with hmem | hmem
    · obtain ⟨c', hc', hd⟩ := ih sz hmem hbig
      cases hc'
      exact ⟨c, (dead_readCb hd hn).1, hd⟩
    · exact readCb_refused hn hmem hbig

/-- Every call of `read` stays within the buffer, every PDU that is handed on is whole, and what is
kept for the next call is good, if and only if every length word is too large or at least 4. A length
word that is too large kills the connection. -/
theorem length_safe_iff (h : rawSystem.Run τ s) :
    (((∀ e ∈ τ, e.Safe) ∧ ∀ c, s = some c → c.rpdu.Safe) ↔
      ∀ sz : Int, .length sz ∈ τ → maxPdu < sz ∨ 4 ≤ sz) ∧
    ∀ sz : Int, .length sz ∈ τ → maxPdu < sz → ∃ c, s = some c ∧ c.dead = true := by
  have hsound := run_sound h
  refine ⟨⟨?_, ?_⟩, run_refused h⟩
  · intro ⟨hsafe, _⟩
    exact hsound.events.mp hsafe
  · intro hok
    refine ⟨hsound.events.mpr hok, ?_⟩
    intro c hc
    rw [hc] at hsound
    exact hsound.rpdu hok _ rfl

/-- A PDU of 24 bytes comes in two pieces, and a length word that is too large after it. -/
theorem length_safe_pieces : ∃ τ s, rawSystem.Run τ s ∧
    τ = [.length 24, .read (some 28) 24 4 20, .read (some 28) 24 14 10, .gotPdu 24 24,
      .length 2147483647] ∧ (∀ e ∈ τ, e.Safe) ∧ s = some { dead := true } := by
  obtain ⟨τ, s, hrun, hτ, hs⟩ := System.exists_run (S := rawSystem) (s := some {})
    (p := fun τ s => τ = [.length 24, .read (some 28) 24 4 20, .read (some 28) 24 14 10,
      .gotPdu 24 24, .length 2147483647] ∧ s = some { dead := true })
    [⟨.word 24, .got 10, true⟩, ⟨.again, .got 10, true⟩, ⟨.word 0x7fffffff, .again, true⟩]
    rfl (by decide)
  refine ⟨τ, s, hrun, hτ, ?_, hs⟩
  apply ((length_safe_iff hrun).1.mpr ?_).1
  intro sz hmem
  rw [hτ] at hmem
  simp only [List.mem_cons, ReadEvent.length.injEq, reduceCtorEq, List.not_mem_nil, or_false,
    false_or] at hmem
  rcases hmem with rfl | rfl
  · exact .inr (by decide)
  · exact .inl (by decide)

/-- A length word of 0 is not refused: `read` is asked for 2^64 - 4 bytes at the end of a buffer of 4,
and that nothing is written there is left to the kernel, which may fail such a call. With -1, not even
the length word fits into the buffer. -/
theorem length_zero_unsafe : sizeT (-4) = 2 ^ 64 - 4 ∧
    (∃ τ s, rawSystem.Run τ s ∧ τ = [.length 0, .read (some 4) 0 4 (-4)] ∧ ¬ ∀ e ∈ τ, e.Safe) ∧
    ∃ τ s, rawSystem.Run τ s ∧ τ = [.length (-1), .read (some 3) (-1) 4 (-5)] ∧
      ¬ ∀ e ∈ τ, e.Safe := by
  refine ⟨by decide, ?_, ?_⟩
  · obtain ⟨τ, s, hrun, rfl⟩ := System.exists_run (S := rawSystem) (s := some {})
      (p := fun τ _ => τ = [.length 0, .read (some 4) 0 4 (-4)]) [⟨.word 0, .failed, true⟩]
      rfl (by decide)
    refine ⟨_, s, hrun, rfl, ?_⟩
    simp [ReadEvent.Safe]
  · obtain ⟨τ, s, hrun, rfl⟩ := System.exists_run (S := rawSystem) (s := some {})
      (p := fun τ _ => τ = [.length (-1), .read (some 3) (-1) 4 (-5)])
      [⟨.word 0xffffffff, .failed, true⟩] rfl (by decide)
    refine ⟨_, s, hrun, rfl, ?_⟩
    simp [ReadEvent.Safe]

end

/-! ## The connection as it is modelled elsewhere -/

section
variable {c c' : Connection} {input : Bytes} {n : Nat} {r₁ r₂ : ReadResult} {accept succ : Bool}
  {pdu : Option Bytes}

/-- The memory of a connection. -/
def Charbuf.raw (r : Charbuf) : RawPdu :=
  { buf := r.buf.map fun _ => sizeT (r.sz + 4), sz := r.sz, solong := r.solong }

def Connection.raw (c : Connection) : RawConn := { dead := c.dead, rpdu := c.rpdu.raw }

/-- What the `read` of the length word returns, with what it has read. -/
def lengthRead (input : Bytes) : ReadResult → LengthRead
  | .got n => if n = 4 then .word ((readInt (input.take 4)).getD 0) else .short
  | .eof _ => .eof
  | .again => .again
  | .failed => .failed

theorem readBody_raw (hmax : c.rpdu.sz ≤ maxPdu) (hmin : 0 ≤ c.rpdu.solong)
    (h : c.readBody input r₂ = some (c', succ, n)) :
    c.rpdu.raw.readBody r₂ = some (c'.rpdu.raw, succ) := by
  have hlt : (maxPdu : Int) < 2 ^ 64 := by decide
  unfold Connection.readBody at h
  split at h
  · rename_i m
    split at h
    · rename_i hm
      cases h
      have hcount := sizeT_eq (x := c.rpdu.sz - c.rpdu.solong) (by omega) (by omega)
      show (if 0 < n ∧ n ≤ sizeT (c.rpdu.sz - c.rpdu.solong) then _ else none) = _
      rw [if_pos ⟨hm.1, by omega⟩]
      simp [Charbuf.raw]
      rfl
    · cases h
  · cases h
    rfl
  · cases h
    rfl
  · cases h
    rfl
  · cases h
    rfl

theorem Charbuf.raw_buf {r : Charbuf} : r.raw.buf = none ↔ r.buf = none := by
  simp [Charbuf.raw]

theorem RawPdu.Safe.bounds {r : Charbuf} (h : r.raw.Safe) : r.sz ≤ maxPdu ∧ 0 ≤ r.solong := by
  obtain h | ⟨hmin, hle, hmax, -⟩ := h
  · have hsz : r.sz = 0 := congrArg RawPdu.sz h
    have hsolong : r.solong = 0 := congrArg RawPdu.solong h
    omega
  · exact ⟨hmax, le_trans (by decide) hmin⟩

theorem readLength_raw {sz : Int} {head : Bytes} (hbuf : c.rpdu.buf = none) (hmin : 4 ≤ sz)
    (hmax : sz ≤ maxPdu)
    (h : { c with rpdu := ⟨some head, sz, 4⟩ }.readBody input r₂ = some (c', succ, n)) :
    ∃ e, c.rpdu.raw.readLength sz r₂ = some (some (c'.rpdu.raw, succ), [.length sz, e]) ∧
      LengthsOk [e] := by
  have hraw := readBody_raw (c := { c with rpdu := ⟨some head, sz, 4⟩ }) hmax
    (show (0 : Int) ≤ 4 by decide) h
  refine ⟨(Charbuf.raw ⟨some head, sz, 4⟩).readEvent, ?_, lengthsOk_readEvent⟩
  unfold RawPdu.readLength
  rw [if_neg (not_lt.mpr hmax), if_neg (not_not.mpr (Charbuf.raw_buf.mpr hbuf)),
    (part_of_length hmin hmax).1]
  show Option.map _ ((Charbuf.raw ⟨some head, sz, 4⟩).readBody r₂) = _
  rw [hraw]
  rfl

theorem readpdu_raw (hc : c.rpdu.raw.Safe) (h : c.readpdu input r₁ r₂ = some (c', succ, n)) :
    ∃ es, c.rpdu.raw.readpdu (lengthRead input r₁) r₂ = some (some (c'.rpdu.raw, succ), es) ∧
      LengthsOk es := by
  obtain ⟨hmax, hmin⟩ := hc.bounds
  unfold Connection.readpdu at h
  unfold RawPdu.readpdu
  split at h
  · rename_i hsz
    refine ⟨[c.rpdu.raw.readEvent], ?_, lengthsOk_readEvent⟩
    rw [if_pos (show c.rpdu.raw.sz ≠ 0 from hsz), readBody_raw hmax hmin h]
    rfl
  · rename_i hsz
    rw [if_neg (show ¬ c.rpdu.raw.sz ≠ 0 from hsz)]
    split at h
    · cases h
      exact ⟨[], rfl, lengthsOk_nil⟩
    · cases h
      exact ⟨[], rfl, lengthsOk_nil⟩
    · cases h
    · rename_i m
      split at h
      · split at h
        · rename_i hfour
          cases h
          exact ⟨[], by simp [lengthRead, hfour], lengthsOk_nil⟩
        · rename_i hfour
          obtain rfl : m = 4 := by simpa using hfour
          show ∃ es, c.rpdu.raw.readLength (Connection.pduSize (input.take 4)) r₂ = _ ∧ _
          simp only at h
          split at h
          · rename_i hbig
            cases h
            refine ⟨_, ?_, lengthsOk_length.mpr ⟨.inl hbig, lengthsOk_nil⟩⟩
            unfold RawPdu.readLength
            rw [if_pos hbig]
          · rename_i hbig
            split at h
            · cases h
            · rename_i hgood
              rw [not_or, not_not] at hgood
              obtain ⟨⟨c₁, succ₁, m₁⟩, hbody, h⟩ := Option.bind_eq_some_iff.mp h
              cases h
              have hsz : 4 ≤ Connection.pduSize (input.take 4) := by omega
              obtain ⟨e, hraw, he⟩ := readLength_raw hgood.1 hsz (by omega) hbody
              exact ⟨_, hraw, lengthsOk_length.mpr ⟨.inr hsz, he⟩⟩
      · cases h

theorem readMore_raw (hc : c.rpdu.raw.Safe) (h : c.readMore input r₁ r₂ = some (c', succ, n)) :
    ∃ es, c.raw.readMore (lengthRead input r₁) r₂ = some (some (c'.rpdu.raw, succ), es) ∧
      LengthsOk es := by
  unfold Connection.readMore at h
  unfold RawConn.readMore
  have hcond : (c.raw.rpdu.buf = none ∨ c.raw.rpdu.solong < c.raw.rpdu.sz) ↔
      (c.rpdu.buf = none ∨ c.rpdu.solong < c.rpdu.sz) := or_congr Charbuf.raw_buf Iff.rfl
  rw [if_congr hcond rfl rfl]
  split
  · rename_i hmore
    rw [if_pos hmore] at h
    exact readpdu_raw hc h
  · rename_i hmore
    rw [if_neg hmore] at h
    cases h
    exact ⟨[], rfl, lengthsOk_nil⟩

theorem offer_raw (c : Connection) (accept : Bool) :
    ∃ es, c.raw.offer accept = ((c.offer accept).1.raw, es) ∧ LengthsOk es := by
  unfold RawConn.offer Connection.offer
  cases hbuf : c.rpdu.buf with
  | none =>
      rw [if_neg (by simp [Connection.raw, Charbuf.raw_buf, hbuf])]
      exact ⟨[], rfl, lengthsOk_nil⟩
  | some b =>
      by_cases hall : c.rpdu.sz = c.rpdu.solong
      · rw [if_pos ⟨by simp [Connection.raw, Charbuf.raw_buf, hbuf], hall⟩]
        refine ⟨[.gotPdu c.rpdu.sz c.rpdu.solong], ?_, lengthsOk_gotPdu⟩
        cases accept <;> simp [hall, Connection.raw, Charbuf.raw]
      · rw [if_neg (by simp [Connection.raw, Charbuf.raw, hall])]
        refine ⟨[], by simp [hall], lengthsOk_nil⟩

/-- Whatever a call of `read_cb` does in the model with bytes, it does with the memory, and the call is
safe. -/
theorem readCb_raw (hc : c.rpdu.raw.Safe) (h : c.readCb input r₁ r₂ accept = some (c', n, pdu)) :
    (∃ es, c.raw.readCb (lengthRead input r₁) r₂ accept = some (some c'.raw, es) ∧
      ∀ e ∈ es, e.Safe) ∧ c'.rpdu.raw.Safe := by
  have hstep : ∃ es, c.raw.readCb (lengthRead input r₁) r₂ accept = some (some c'.raw, es) ∧
      LengthsOk es := by
    unfold RawConn.readCb
    cases hd : c.dead with
    | true =>
        rw [readCb_dead hd] at h
        cases h
        rw [if_pos (show c.raw.dead = true from hd)]
        exact ⟨[], rfl, lengthsOk_nil⟩
    | false =>
        rw [readCb_live hd] at h
        obtain ⟨⟨c₁, succ, m⟩, hread, hres⟩ := Option.map_eq_some_iff.mp h
        cases hres
        obtain ⟨es₁, hread, hok₁⟩ := readMore_raw hc hread
        obtain ⟨es₂, hoffer, hok₂⟩ := offer_raw { c₁ with dead := !succ } accept
        rw [if_neg (show ¬ c.raw.dead = true by simp [Connection.raw, hd]), hread]
        refine ⟨es₁ ++ es₂, ?_, lengthsOk_append.mpr ⟨hok₁, hok₂⟩⟩
        show some (some (RawConn.offer ⟨!succ, c₁.rpdu.raw⟩ accept).1,
          es₁ ++ (RawConn.offer ⟨!succ, c₁.rpdu.raw⟩ accept).2) = _
        have hoffer : RawConn.offer ⟨!succ, c₁.rpdu.raw⟩ accept = _ := hoffer
        rw [hoffer]
  obtain ⟨es, hraw, hok⟩ := hstep
  have hsound := readCb_sound (c := c.raw) hc hraw
  exact ⟨⟨es, hraw, hsound.events.mpr hok⟩, hsound.rpdu hok _ rfl⟩

end

end Yfs.Net
