import Yfs.Lib.Pieces
import Yfs.Net.Receiver

/-!
# A stream of PDUs in pieces

TCP may hand over a stream of bytes in any pieces, and `read` returns EAGAIN where nothing is there.
`read_cb` keeps the part of a PDU that it has read, but not the part of a length word. So what is
delivered does not depend on the pieces if and only if no piece ends within a length word, and `read`
does not return EAGAIN where a length word is due (`delivery_iff`).

An empty piece stands for EAGAIN.
-/

namespace Yfs.Net

open Yfs.Lib
open Yfs.Rpc (Bytes)
open Yfs.Wire (maxPdu)
open Connection (pduSize)

/-- What `read` returns when it gives so many bytes. -/
def readResult : Option Nat → ReadResult
  | some n => .got n
  | none => .again

namespace Connection

/-- What the two calls of `read` in `read_cb` return, and the pieces that are left. Where a call is not
made, its result is not used. -/
def pieceReads (c : Connection) (pieces : List Bytes) : ReadResult × ReadResult × List Bytes :=
  if c.dead = false ∧ (c.rpdu.buf = none ∨ c.rpdu.solong < c.rpdu.sz) then
    if c.rpdu.sz ≠ 0 then
      let (n, rest) := readPiece pieces (c.rpdu.sz - c.rpdu.solong).toNat
      (.again, readResult n, rest)
    else
      let (n, rest) := readPiece pieces 4
      let sz := pduSize (pieces.flatten.take 4)
      if n = some 4 ∧ sz ≤ maxPdu then
        let (n', rest) := readPiece rest (sz - 4).toNat
        (readResult n, readResult n', rest)
      else (readResult n, .again, rest)
  else (.again, .again, pieces)

/-- `connection::read_cb` on a stream in pieces. -/
def readPieces (c : Connection) (pieces : List Bytes) (accept : Bool) :
    Option (Connection × List Bytes × Option Bytes) :=
  let (r₁, r₂, rest) := c.pieceReads pieces
  (c.readCb pieces.flatten r₁ r₂ accept).map fun r => (r.1, rest, r.2.2)

/-- Calls of `read_cb` until everything is read, with the PDUs that the manager takes. The list says
which of the calls it would take a PDU in. -/
def deliver (c : Connection) (pieces : List Bytes) : List Bool → Option (Connection × List Bytes)
  | [] => some (c, [])
  | accept :: accepts =>
      if pieces = [] ∧ c.rpdu.buf = none then some (c, [])
      else do
        let (c, pieces, pdu) ← c.readPieces pieces accept
        let (c, pdus) ← c.deliver pieces accepts
        return (c, pdu.toList ++ pdus)

end Connection

/-- After enough calls, the connection is alive and has delivered `pdus`. -/
def Delivers (pieces pdus : List Bytes) : Prop :=
  ∃ m, ∀ accepts : List Bool, m ≤ accepts.count true →
    ∃ c, Connection.deliver {} pieces accepts = some (c, pdus) ∧ c.dead = false

/-- A piece may begin at `k` in a stream of `m` bytes and then the PDUs `ps`: `k` is not within a length
word, and a piece that begins where a PDU begins or the stream ends is not empty. -/
def MayCut (m : Nat) (ps : List Bytes) (k : Nat) (piece : Bytes) : Prop :=
  ∀ i ≤ ps.length, ¬ (m + (ps.take i).flatten.length < k ∧ k < m + (ps.take i).flatten.length + 4) ∧
    (piece = [] → k ≠ m + (ps.take i).flatten.length)

/-- The pieces of the PDUs `ps` begin where they may. -/
def CutOk (ps pieces : List Bytes) : Prop := At (MayCut 0 ps) pieces

/-! ## Places -/

section
variable {m n k : Nat} {ps pieces rest : List Bytes} {p piece : Bytes}

theorem mayCut_add (hn : n ≤ m) : MayCut m ps (n + k) piece ↔ MayCut (m - n) ps k piece := by
  unfold MayCut
  apply forall_congr'
  intro i
  apply imp_congr_right
  intro _
  constructor
  · intro ⟨hin, hat⟩
    exact ⟨by omega, fun hnil => by have := hat hnil; omega⟩
  · intro ⟨hin, hat⟩
    exact ⟨by omega, fun hnil => by have := hat hnil; omega⟩

/-- Nothing is wrong with a piece that begins where the reader stands, unless it is empty. -/
theorem mayCut_zero : MayCut m ps 0 piece ↔ (piece = [] → m ≠ 0) := by
  constructor
  · intro h hnil hm
    exact (h 0 (Nat.zero_le _)).2 hnil (by simp [hm])
  · intro h i _
    exact ⟨by omega, fun hnil => by have := h hnil; omega⟩

theorem mayCut_cons : MayCut 0 (p :: ps) k piece ↔
    (¬ (0 < k ∧ k < 4) ∧ (piece = [] → k ≠ 0)) ∧ MayCut p.length ps k piece := by
  constructor
  · intro h
    refine ⟨by simpa using h 0 (Nat.zero_le _), ?_⟩
    intro i hi
    have := h (i + 1) (by simpa using hi)
    simpa using this
  · intro ⟨hzero, h⟩ i hi
    cases i with
    | zero => simpa using hzero
    | succ i =>
        have := h i (by simpa using hi)
        simpa using this

/-- Nothing is wrong with a piece that begins in the rest of a PDU. -/
theorem mayCut_le (hk : k ≤ m) (hne : piece ≠ []) : MayCut m ps k piece := by
  intro i _
  exact ⟨by omega, fun hnil => absurd hnil hne⟩

/-- A read in the middle of a PDU. -/
theorem at_body (h : readPiece pieces m = (some n, rest)) (hn : n ≤ m) :
    At (MayCut m ps) pieces ↔ At (MayCut (m - n) ps) rest := by
  rw [at_readPiece (fun _ => mayCut_le (Nat.zero_le m)) (fun _ => mayCut_le (Nat.le_refl m)) h]
  exact at_congr fun k piece => mayCut_add hn

/-- The read of a length word. -/
theorem at_word (hp : 4 < p.length) (h : readPiece pieces 4 = (some n, rest)) :
    At (MayCut 0 (p :: ps)) pieces ↔ At (fun k => MayCut 0 (p :: ps) (n + k)) rest := by
  refine at_readPiece (fun _ => mayCut_le (Nat.le_refl 0)) ?_ h
  intro piece hne
  exact mayCut_cons.mpr ⟨⟨by omega, by omega⟩, mayCut_le (Nat.le_of_lt hp) hne⟩

theorem at_word_whole (hp : 4 < p.length) (h : readPiece pieces 4 = (some 4, rest)) :
    At (MayCut 0 (p :: ps)) pieces ↔ At (MayCut (p.length - 4) ps) rest := by
  rw [at_word hp h]
  apply at_congr
  intro k piece
  rw [mayCut_cons, mayCut_add (Nat.le_of_lt hp)]
  exact and_iff_right ⟨by omega, by omega⟩

/-- The length word is not there as a whole: a piece begins within it. -/
theorem not_at_word (hp : 4 < p.length) (h : readPiece pieces 4 = (some n, rest)) (hn : n < 4)
    (hpieces : 4 ≤ pieces.flatten.length) : ¬ At (MayCut 0 (p :: ps)) pieces := by
  obtain ⟨hpos, -, -, hrest, -⟩ := flatten_readPiece (by decide) h
  rw [at_word hp h]
  cases rest with
  | nil =>
      have := congrArg List.length hrest
      rw [List.length_drop] at this
      simp only [List.flatten_nil, List.length_nil] at this
      omega
  | cons piece rest =>
      intro hat
      have := (mayCut_cons.mp (at_cons.mp hat).1).1.1
      omega

end

/-! ## One call -/

/-- A PDU of which `b` is there and `d` is not. -/
def Charbuf.part (b d : Bytes) : Charbuf := ⟨some b, b.length + d.length, b.length⟩

/-- Where a connection stands in a stream in pieces: `m` bytes of a PDU are to be read before the PDUs
`ps`, and `todo` is to be delivered. -/
inductive Midway (r : Charbuf) (pieces : List Bytes) : Nat → List Bytes → List Bytes → Prop where
  | idle {ps} : r = {} → pieces.flatten = ps.flatten → Midway r pieces 0 ps ps
  | part {b d ps} : r = .part b d → 4 ≤ b.length → pieces.flatten = d ++ ps.flatten →
      Midway r pieces d.length ((b ++ d) :: ps) ps

/-- A bound for the number of calls that take a PDU. -/
def calls (r : Charbuf) (pieces : List Bytes) : Nat := reads pieces + if r.buf = none then 0 else 1

section
variable {c : Connection} {m : Nat} {b d : Bytes} {ps todo pieces : List Bytes} {accept : Bool}

/-- The rest of a PDU is read, as far as it is there. -/
theorem readBody_part {n? : Option Nat} {rest : List Bytes} (hr : c.rpdu = .part b d) (hd : d ≠ [])
    (hpieces : pieces.flatten = d ++ ps.flatten) (hread : readPiece pieces d.length = (n?, rest)) :
    ∃ n b' d', c.readBody pieces.flatten (readResult n?) =
        some ({ c with rpdu := .part b' d' }, true, n) ∧
      b' ++ d' = b ++ d ∧ b.length ≤ b'.length ∧ rest.flatten = d' ++ ps.flatten ∧
      (At (MayCut d.length ps) pieces ↔ At (MayCut d'.length ps) rest) ∧
      reads rest < reads pieces := by
  have hpos := List.length_pos_iff.mpr hd
  cases n? with
  | none =>
      -- nothing is there
      have hne : pieces ≠ [] := by
        intro hnil
        rw [hnil] at hpieces
        exact hd (List.append_eq_nil_iff.mp hpieces.symm).1
      obtain rfl := readPiece_none hne hread
      refine ⟨0, b, d, ?_, rfl, Nat.le_refl _, hpieces, ?_, ?_⟩
      · rw [← hr]
        rfl
      · rw [at_cons, mayCut_zero, and_iff_right (fun _ => by omega)]
        simp
      · simp [reads]
  | some n =>
      obtain ⟨hn, hle, hlen, hrest, hreads⟩ := flatten_readPiece hpos hread
      refine ⟨n, b ++ d.take n, d.drop n, ?_, ?_, ?_, ?_, ?_, by omega⟩
      · have htake : pieces.flatten.take n = d.take n := by
          rw [hpieces, List.take_append_of_le_length hle]
        have hcount : n ≤ (c.rpdu.sz - c.rpdu.solong).toNat := by
          rw [hr]
          show n ≤ ((b.length + d.length : Int) - b.length).toNat
          omega
        show (if 0 < n ∧ n ≤ (c.rpdu.sz - c.rpdu.solong).toNat ∧ n ≤ pieces.flatten.length
          then _ else none) = _
        have hpart : (⟨(Charbuf.part b d).buf.map (· ++ d.take n), (Charbuf.part b d).sz,
            (Charbuf.part b d).solong + n⟩ : Charbuf) = .part (b ++ d.take n) (d.drop n) := by
          simp only [Charbuf.part, Option.map_some, List.length_append, List.length_take,
            List.length_drop, Nat.min_eq_left hle, Charbuf.mk.injEq, true_and]
          omega
        rw [if_pos ⟨hn, hcount, hlen⟩, htake, hr, hpart]
      · rw [List.append_assoc, List.take_append_drop]
      · simp
      · rw [hrest, hpieces, List.drop_append_of_le_length hle]
      · rw [List.length_drop]
        exact at_body hread hle

/-- What the reads of a call do: they bring the connection forward, or the pieces are not cut well, and
the connection dies or the process stops. -/
def ReadsTo (c : Connection) (pieces : List Bytes) (m : Nat) (todo ps : List Bytes) : Prop :=
  ∃ r₁ r₂ rest, c.pieceReads pieces = (r₁, r₂, rest) ∧
    ((∃ n r m' ps', c.readMore pieces.flatten r₁ r₂ = some ({ c with rpdu := r }, true, n) ∧
        Midway r rest m' todo ps' ∧ (At (MayCut m ps) pieces ↔ At (MayCut m' ps') rest) ∧
        (calls r rest < calls c.rpdu pieces ∨
          r = c.rpdu ∧ rest = pieces ∧ r.buf ≠ none ∧ r.sz = r.solong)) ∨
      ¬ At (MayCut m ps) pieces ∧
        ∀ c' succ n, c.readMore pieces.flatten r₁ r₂ = some (c', succ, n) → succ = false)

/-- All of the PDU is there already. -/
theorem readsTo_whole (hr : c.rpdu = .part b []) (hb : 4 ≤ b.length)
    (hpieces : pieces.flatten = ps.flatten) : ReadsTo c pieces 0 (b :: ps) ps := by
  have hdone : ¬ (c.rpdu.buf = none ∨ c.rpdu.solong < c.rpdu.sz) := by
    rw [hr]
    simp [Charbuf.part]
  have hreads : c.pieceReads pieces = (.again, .again, pieces) := by
    unfold Connection.pieceReads
    rw [if_neg (fun h => hdone h.2)]
  refine ⟨_, _, _, hreads, .inl ⟨0, c.rpdu, 0, ps, ?_, ?_, Iff.rfl, .inr ⟨rfl, rfl, ?_, ?_⟩⟩⟩
  · unfold Connection.readMore
    rw [if_neg hdone]
  · have := Midway.part (d := []) hr hb hpieces
    simpa using this
  · simp [hr, Charbuf.part]
  · simp [hr, Charbuf.part]

/-- The rest of a PDU is to be read. -/
theorem readsTo_part (hlive : c.dead = false) (hr : c.rpdu = .part b d) (hb : 4 ≤ b.length)
    (hd : d ≠ [])
    (hpieces : pieces.flatten = d ++ ps.flatten) :
    ReadsTo c pieces d.length ((b ++ d) :: ps) ps := by
  have hpos := List.length_pos_iff.mpr hd
  have hmore : c.rpdu.buf = none ∨ c.rpdu.solong < c.rpdu.sz := by
    rw [hr]
    right
    show (b.length : Int) < b.length + d.length
    omega
  have hsz : c.rpdu.sz ≠ 0 := by
    rw [hr]
    show (b.length + d.length : Int) ≠ 0
    omega
  have hcount : (c.rpdu.sz - c.rpdu.solong).toNat = d.length := by
    rw [hr]
    show ((b.length + d.length : Int) - b.length).toNat = _
    omega
  obtain ⟨n?, rest, hread⟩ : ∃ n? rest, readPiece pieces d.length = (n?, rest) := ⟨_, _, rfl⟩
  have hreads : c.pieceReads pieces = (.again, readResult n?, rest) := by
    unfold Connection.pieceReads
    rw [if_pos ⟨hlive, hmore⟩, if_pos hsz, hcount, hread]
  obtain ⟨n, b', d', hbody, happ, hle, hrest, hat, hlt⟩ := readBody_part hr hd hpieces hread
  refine ⟨_, _, _, hreads, .inl ⟨n, .part b' d', d'.length, ps, ?_, ?_, hat, .inl ?_⟩⟩
  · unfold Connection.readMore Connection.readpdu
    rw [if_pos hmore, if_pos hsz]
    exact hbody
  · rw [← happ]
    exact .part rfl (hb.trans hle) hrest
  · unfold calls
    rw [hr]
    show reads rest + 1 < reads pieces + 1
    omega

section
variable {n? : Option Nat} {rest : List Bytes} {input p : Bytes} {r₂ : ReadResult}

/-- The reads of a call that begins with a length word. -/
theorem pieceReads_idle (hlive : c.dead = false) (hr : c.rpdu = {})
    (hread : readPiece pieces 4 = (n?, rest)) :
    c.pieceReads pieces =
      if n? = some 4 ∧ pduSize (pieces.flatten.take 4) ≤ maxPdu then
        (readResult n?, readResult (readPiece rest (pduSize (pieces.flatten.take 4) - 4).toNat).1,
          (readPiece rest (pduSize (pieces.flatten.take 4) - 4).toNat).2)
      else (readResult n?, .again, rest) := by
  unfold Connection.pieceReads
  rw [if_pos ⟨hlive, .inl (by rw [hr])⟩, if_neg (by simp [hr]), hread]

theorem readMore_idle (hr : c.rpdu = {}) (r₁ : ReadResult) :
    c.readMore input r₁ r₂ = c.readpdu input r₁ r₂ := by
  unfold Connection.readMore
  rw [if_pos (.inl (by rw [hr]))]

/-- A length word is there, and `readpdu` goes on. -/
theorem readpdu_word {c' : Connection} {succ : Bool} {n : Nat} {sz : Int} (hr : c.rpdu = {})
    (hlen : 4 ≤ input.length) (hsize : pduSize (input.take 4) = sz) (hmin : 4 ≤ sz)
    (hmax : sz ≤ maxPdu)
    (hbody : { c with rpdu := ⟨some (input.take 4), sz, 4⟩ }.readBody (input.drop 4) r₂ =
      some (c', succ, n)) :
    c.readpdu input (.got 4) r₂ = some (c', succ, 4 + n) := by
  unfold Connection.readpdu
  simp only [hsize]
  rw [if_neg (by simp [hr]), if_pos ⟨by decide, le_refl 4, hlen⟩, if_neg (by decide),
    if_neg (not_lt.mpr hmax), if_neg (by simp [hr, hmin]), hbody]
  rfl

/-- Nothing is there where a length word is due. -/
theorem readsTo_again (hlive : c.dead = false) (hr : c.rpdu = {}) (hne : pieces ≠ [])
    (hread : readPiece pieces 4 = (none, rest)) : ReadsTo c pieces 0 todo ps := by
  have hreads : c.pieceReads pieces = (.again, .again, rest) := by
    rw [pieceReads_idle hlive hr hread, if_neg (by simp)]
    rfl
  refine ⟨_, _, _, hreads, .inr ⟨?_, ?_⟩⟩
  · obtain rfl := readPiece_none hne hread
    rw [at_cons, mayCut_zero]
    simp
  · intro c' succ n h
    rw [readMore_idle hr] at h
    unfold Connection.readpdu at h
    rw [if_neg (by simp [hr])] at h
    cases h

/-- Only a part of the length word is there. -/
theorem readsTo_short {n : Nat} (hlive : c.dead = false) (hr : c.rpdu = {}) (hp : 4 < p.length)
    (hpieces : pieces.flatten = p ++ ps.flatten) (hread : readPiece pieces 4 = (some n, rest))
    (hn : n ≠ 4) : ReadsTo c pieces 0 todo (p :: ps) := by
  obtain ⟨hpos, hle, hlen, -, -⟩ := flatten_readPiece (by decide) hread
  have hreads : c.pieceReads pieces = (.got n, .again, rest) := by
    rw [pieceReads_idle hlive hr hread, if_neg (by simp [hn])]
    rfl
  refine ⟨_, _, _, hreads, .inr ⟨?_, ?_⟩⟩
  · apply not_at_word hp hread (by omega)
    rw [hpieces, List.length_append]
    omega
  · intro c' succ n' h
    rw [readMore_idle hr] at h
    unfold Connection.readpdu at h
    rw [if_neg (by simp [hr])] at h
    simp only [hpos, hle, hlen, hn, and_self, if_true, ne_eq, not_false_eq_true] at h
    cases h
    rfl

/-- A length word and as much of the rest as is there. -/
theorem readsTo_word (hlive : c.dead = false) (hr : c.rpdu = {}) (hframe : pduFraming.IsFrame p)
    (hp : Sendable p) (hpieces : pieces.flatten = p ++ ps.flatten)
    (hread : readPiece pieces 4 = (some 4, rest)) : ReadsTo c pieces 0 (p :: ps) (p :: ps) := by
  have hlen : 24 ≤ p.length := hp.1
  have hmax : (p.length : Int) ≤ maxPdu := by exact_mod_cast hp.2
  have htake : pieces.flatten.take 4 = p.take 4 := by
    rw [hpieces, List.take_append_of_le_length (by omega)]
  have hsize : pduSize (pieces.flatten.take 4) = p.length := by
    rw [htake]
    exact pduSize_take hframe hp
  obtain ⟨-, -, hfour, hinput, hreads₁⟩ := flatten_readPiece (by decide) hread
  have hrest : rest.flatten = p.drop 4 ++ ps.flatten := by
    rw [hinput, hpieces, List.drop_append_of_le_length (by omega)]
  have hdrop : (p.drop 4).length = p.length - 4 := List.length_drop
  have hd : p.drop 4 ≠ [] := by
    rw [← List.length_pos_iff]
    omega
  obtain ⟨n?, rest', hread'⟩ : ∃ n? rest', readPiece rest (p.drop 4).length = (n?, rest') :=
    ⟨_, _, rfl⟩
  have hreads : c.pieceReads pieces = (.got 4, readResult n?, rest') := by
    have hcount : ((p.length : Int) - 4).toNat = (p.drop 4).length := by omega
    rw [pieceReads_idle hlive hr hread, hsize, if_pos ⟨rfl, hmax⟩, hcount, hread']
    rfl
  have hpart : (⟨some (p.take 4), p.length, 4⟩ : Charbuf) = .part (p.take 4) (p.drop 4) := by
    simp only [Charbuf.part, List.length_take, hdrop, Charbuf.mk.injEq, true_and]
    omega
  obtain ⟨n, b', d', hbody, happ, hle, hrest', hat, hlt⟩ := readBody_part
    (c := { c with rpdu := .part (p.take 4) (p.drop 4) }) rfl hd hrest hread'
  refine ⟨_, _, _, hreads, .inl ⟨4 + n, .part b' d', d'.length, ps, ?_, ?_, ?_, .inl ?_⟩⟩
  · rw [readMore_idle hr]
    apply readpdu_word hr hfour hsize (by omega) hmax
    rw [htake, hpart, ← hinput]
    exact hbody
  · rw [List.take_append_drop] at happ
    rw [← happ]
    refine .part rfl (le_trans ?_ hle) hrest'
    rw [List.length_take]
    omega
  · rw [at_word_whole (by omega) hread, ← hdrop]
    exact hat
  · unfold calls
    rw [hr]
    show reads rest' + 1 < reads pieces + 0
    omega

end

/-- The reads of a call, wherever the connection stands. -/
theorem Midway.readsTo (hlive : c.dead = false) (h : Midway c.rpdu pieces m todo ps)
    (htodo : ∀ p ∈ todo, pduFraming.IsFrame p ∧ Sendable p)
    (hready : ¬ (pieces = [] ∧ c.rpdu.buf = none)) : ReadsTo c pieces m todo ps := by
  cases h with
  | idle hr hpieces =>
      have hne : pieces ≠ [] := fun hnil => hready ⟨hnil, by rw [hr]⟩
      obtain ⟨n?, rest, hread⟩ : ∃ n? rest, readPiece pieces 4 = (n?, rest) := ⟨_, _, rfl⟩
      cases n? with
      | none => exact readsTo_again hlive hr hne hread
      | some n =>
          obtain ⟨hpos, -, hlen, -, -⟩ := flatten_readPiece (by decide) hread
          cases ps with
          | nil =>
              rw [hpieces] at hlen
              simp only [List.flatten_nil, List.length_nil] at hlen
              omega
          | cons p ps =>
              obtain ⟨hframe, hp⟩ := htodo p (by simp)
              by_cases hn : n = 4
              · subst hn
                exact readsTo_word hlive hr hframe hp hpieces hread
              · exact readsTo_short hlive hr (lt_of_lt_of_le (by decide) hp.1) hpieces hread hn
  | part hr hb hpieces =>
      rename_i b d
      by_cases hd : d = []
      · subst hd
        rw [List.append_nil]
        exact readsTo_whole hr hb hpieces
      · exact readsTo_part hlive hr hb hd hpieces

/-- The PDU is delivered if all of it is there and the manager takes it. -/
theorem Midway.offer (h : Midway c.rpdu pieces m todo ps) (accept : Bool) :
    ∃ todo', Midway (c.offer accept).1.rpdu pieces m todo' ps ∧
      todo = (c.offer accept).2.toList ++ todo' ∧
      calls (c.offer accept).1.rpdu pieces ≤ calls c.rpdu pieces ∧
      (accept = true → c.rpdu.buf ≠ none → c.rpdu.sz = c.rpdu.solong →
        calls (c.offer accept).1.rpdu pieces < calls c.rpdu pieces) := by
  unfold Connection.offer
  cases h with
  | idle hr hpieces =>
      have hbuf : c.rpdu.buf = none := by rw [hr]
      simp only [hbuf]
      exact ⟨_, .idle hr hpieces, rfl, Nat.le_refl _, fun _ h => absurd rfl h⟩
  | part hr hb hpieces =>
      rename_i b d
      have hbuf : c.rpdu.buf = some b := by
        rw [hr]
        rfl
      simp only [hbuf]
      split
      · rename_i hall
        have hd : d = [] := by
          have hall := hall.1
          rw [hr] at hall
          simp only [Charbuf.part] at hall
          rw [← List.length_eq_zero_iff]
          omega
        subst hd
        refine ⟨ps, .idle rfl hpieces, by simp, ?_, fun _ _ _ => ?_⟩
        · simp [calls]
        · simp [calls, hbuf]
      · rename_i hall
        refine ⟨_, .part hr hb hpieces, rfl, Nat.le_refl _, fun haccept _ hsz => ?_⟩
        exact absurd ⟨hsz, haccept⟩ hall

theorem dead_offer_eq (c : Connection) (accept : Bool) : (c.offer accept).1.dead = c.dead := by
  unfold Connection.offer
  split
  · split <;> rfl
  · rfl

/-- One call of `read_cb` brings the connection forward; or the pieces are not cut well, and the
connection dies or the process stops. -/
theorem Midway.readPieces (hlive : c.dead = false) (h : Midway c.rpdu pieces m todo ps)
    (htodo : ∀ p ∈ todo, pduFraming.IsFrame p ∧ Sendable p)
    (hready : ¬ (pieces = [] ∧ c.rpdu.buf = none)) (accept : Bool) :
    (∃ c' rest pdu m' todo' ps', c.readPieces pieces accept = some (c', rest, pdu) ∧
      c'.dead = false ∧ Midway c'.rpdu rest m' todo' ps' ∧ todo = pdu.toList ++ todo' ∧
      (At (MayCut m ps) pieces ↔ At (MayCut m' ps') rest) ∧
      calls c'.rpdu rest + accept.toNat ≤ calls c.rpdu pieces) ∨
    ¬ At (MayCut m ps) pieces ∧
      ∀ c' rest pdu, c.readPieces pieces accept = some (c', rest, pdu) → c'.dead = true := by
  obtain ⟨r₁, r₂, rest, hreads, hcase⟩ := h.readsTo hlive htodo hready
  unfold Connection.readPieces
  simp only [hreads, readCb_live hlive]
  obtain ⟨n, r, m', ps', hmore, hmid, hat, hcalls⟩ | ⟨hcut, hfail⟩ := hcase
  · left
    have hmid : Midway { c with dead := false, rpdu := r }.rpdu rest m' todo ps' := hmid
    obtain ⟨todo', hmid', htodo', hle, hlt⟩ := hmid.offer accept
    rw [hmore]
    refine ⟨_, rest, _, m', todo', ps', rfl, ?_, hmid', htodo', hat, ?_⟩
    · rw [dead_offer_eq]
      rfl
    · show calls ({ c with dead := false, rpdu := r }.offer accept).1.rpdu rest + _ ≤ _
      have haccept : accept.toNat ≤ 1 := Bool.toNat_le accept
      obtain hcalls | ⟨hr, hpieces, hbuf, hsz⟩ := hcalls
      · have hle : _ ≤ calls r rest := hle
        omega
      · -- nothing is read, but the PDU may be taken
        rw [← hr, ← hpieces]
        cases accept with
        | true => exact hlt rfl hbuf hsz
        | false => exact hle
  · right
    refine ⟨hcut, ?_⟩
    intro c' rest' pdu hres
    obtain ⟨r', hres, heq⟩ := Option.map_eq_some_iff.mp hres
    obtain ⟨⟨c₁, succ, n⟩, hmore, hres⟩ := Option.map_eq_some_iff.mp hres
    cases hfail c₁ succ n hmore
    cases hres
    cases heq
    rw [dead_offer_eq]
    rfl

end

/-! ## All calls -/

section
variable {c : Connection} {m : Nat} {ps todo pieces : List Bytes}

theorem calls_eq_zero (h : calls c.rpdu pieces = 0) : pieces = [] ∧ c.rpdu.buf = none := by
  unfold calls reads at h
  by_cases hbuf : c.rpdu.buf = none
  · refine ⟨?_, hbuf⟩
    rw [← List.length_eq_zero_iff]
    omega
  · rw [if_neg hbuf] at h
    omega

/-- When nothing is left to read, everything is delivered. -/
theorem Midway.done (h : Midway c.rpdu pieces m todo ps)
    (htodo : ∀ p ∈ todo, pduFraming.IsFrame p ∧ Sendable p)
    (hdone : pieces = [] ∧ c.rpdu.buf = none) : todo = [] ∧ At (MayCut m ps) pieces := by
  obtain ⟨rfl, hbuf⟩ := hdone
  refine ⟨?_, at_nil⟩
  cases h with
  | idle _ hpieces =>
      cases ps with
      | nil => rfl
      | cons p ps =>
          have hp := (htodo p (by simp)).2.1
          have hlen := congrArg List.length hpieces
          rw [List.flatten_cons, List.length_append, List.flatten_nil, List.length_nil] at hlen
          omega
  | part hr _ _ =>
      rw [hr] at hbuf
      cases hbuf

theorem deliver_dead (hd : c.dead = true) (pieces : List Bytes) (accepts : List Bool) :
    c.deliver pieces accepts = some (c, []) := by
  induction accepts with
  | nil => rfl
  | cons accept accepts ih =>
      have hreads : c.pieceReads pieces = (.again, .again, pieces) := by
        unfold Connection.pieceReads
        rw [if_neg (by simp [hd])]
      have hcall : c.readPieces pieces accept = some (c, pieces, none) := by
        unfold Connection.readPieces
        simp only [hreads, readCb_dead hd, Option.map_some]
      rw [Connection.deliver, hcall]
      split
      · rfl
      · show (c.deliver pieces accepts).bind _ = _
        rw [ih]
        rfl

/-- Enough calls deliver everything if the pieces are cut well, and otherwise the connection dies or
the process stops. -/
theorem Midway.deliver (accepts : List Bool) (hlive : c.dead = false)
    (h : Midway c.rpdu pieces m todo ps) (htodo : ∀ p ∈ todo, pduFraming.IsFrame p ∧ Sendable p)
    (hcalls : calls c.rpdu pieces ≤ accepts.count true) :
    (At (MayCut m ps) pieces →
      ∃ c', c.deliver pieces accepts = some (c', todo) ∧ c'.dead = false) ∧
    (¬ At (MayCut m ps) pieces →
      ∀ c' pdus, c.deliver pieces accepts = some (c', pdus) → c'.dead = true) := by
  induction accepts generalizing c pieces m todo ps with
  | nil =>
      obtain ⟨rfl, hat⟩ := h.done htodo (calls_eq_zero (Nat.le_zero.mp hcalls))
      exact ⟨fun _ => ⟨c, rfl, hlive⟩, fun hcut => absurd hat hcut⟩
  | cons accept accepts ih =>
      rw [Connection.deliver]
      split
      · rename_i hdone
        obtain ⟨rfl, hat⟩ := h.done htodo hdone
        exact ⟨fun _ => ⟨c, rfl, hlive⟩, fun hcut => absurd hat hcut⟩
      · rename_i hready
        rcases h.readPieces hlive htodo hready accept with
          ⟨c₁, rest, pdu, m', todo', ps', hcall, hlive₁, hmid, rfl, hat, hle⟩ | ⟨hcut, hdead⟩
        · -- the connection has come forward
          have hcalls₁ : calls c₁.rpdu rest ≤ accepts.count true := by
            rw [List.count_cons] at hcalls
            cases accept with
            | true =>
                simp only [Bool.toNat_true, beq_self_eq_true, if_true] at hle hcalls
                omega
            | false =>
                simp only [Bool.toNat_false, Bool.false_beq, Bool.not_true, Bool.false_eq_true,
                  if_false] at hle hcalls
                omega
          have hrest := ih hlive₁ hmid (fun p hp => htodo p (by simp [hp])) hcalls₁
          rw [hcall, hat]
          refine ⟨fun hok => ?_, fun hbad => ?_⟩
          · obtain ⟨c', hdeliver, hlive'⟩ := hrest.1 hok
            refine ⟨c', ?_, hlive'⟩
            show (c₁.deliver rest accepts).bind _ = _
            rw [hdeliver]
            rfl
          · intro c' pdus hres
            have hres : (c₁.deliver rest accepts).bind _ = some (c', pdus) := hres
            obtain ⟨⟨c₂, pdus₂⟩, hdeliver, hres⟩ := Option.bind_eq_some_iff.mp hres
            cases hres
            exact hrest.2 hbad _ _ hdeliver
        · -- the connection is dead
          refine ⟨fun hok => absurd hok hcut, fun _ c' pdus hres => ?_⟩
          obtain ⟨⟨c₁, rest, pdu⟩, hcall, hres⟩ := Option.bind_eq_some_iff.mp hres
          have hd := hdead c₁ rest pdu hcall
          obtain ⟨⟨c₂, pdus₂⟩, hdeliver, hres⟩ := Option.bind_eq_some_iff.mp hres
          cases hres
          rw [deliver_dead hd] at hdeliver
          cases hdeliver
          exact hd

/-- A stream of PDUs in pieces is delivered if and only if the pieces are cut well. -/
theorem delivers_iff (hps : ∀ p ∈ ps, pduFraming.IsFrame p ∧ Sendable p)
    (hpieces : pieces.flatten = ps.flatten) :
    (CutOk ps pieces → Delivers pieces ps) ∧ ((∃ pdus, Delivers pieces pdus) → CutOk ps pieces) := by
  have hrun := fun accepts => Midway.deliver (c := {}) accepts rfl (.idle rfl hpieces) hps
  refine ⟨fun hok => ⟨calls {} pieces, fun accepts hcalls => (hrun accepts hcalls).1 hok⟩, ?_⟩
  intro ⟨pdus, n, hdeliver⟩
  by_contra hcut
  -- a list that is long enough for both
  have hcount : ∀ k, (List.replicate k true).count true = k := by
    intro k
    simp
  obtain ⟨c, hres, hlive⟩ := hdeliver (List.replicate (max n (calls {} pieces)) true)
    (by rw [hcount]; exact le_max_left _ _)
  have hdead := (hrun (List.replicate (max n (calls {} pieces)) true)
    (by rw [hcount]; exact le_max_right _ _)).2 hcut c pdus hres
  rw [hlive] at hdead
  cases hdead

/-- Two ways to cut a stream of PDUs into pieces deliver the same, and leave the connection alive, if
and only if both are cut well; and then the PDUs of the stream are delivered. -/
theorem delivery_iff {pieces₁ pieces₂ : List Bytes}
    (hps : ∀ p ∈ ps, pduFraming.IsFrame p ∧ Sendable p)
    (h₁ : pieces₁.flatten = ps.flatten) (h₂ : pieces₂.flatten = ps.flatten) :
    ((∃ pdus, Delivers pieces₁ pdus ∧ Delivers pieces₂ pdus) ↔ CutOk ps pieces₁ ∧ CutOk ps pieces₂) ∧
      (CutOk ps pieces₁ → Delivers pieces₁ ps) := by
  refine ⟨⟨?_, ?_⟩, (delivers_iff hps h₁).1⟩
  · intro ⟨pdus, hd₁, hd₂⟩
    exact ⟨(delivers_iff hps h₁).2 ⟨pdus, hd₁⟩, (delivers_iff hps h₂).2 ⟨pdus, hd₂⟩⟩
  · intro ⟨hc₁, hc₂⟩
    exact ⟨ps, (delivers_iff hps h₁).1 hc₁, (delivers_iff hps h₂).1 hc₂⟩

/-- A PDU of 24 bytes. -/
def shortPdu : Bytes := [0, 0, 0, 24] ++ List.replicate 20 1

theorem shortPdu_frame : ∀ p ∈ [shortPdu], pduFraming.IsFrame p ∧ Sendable p := by
  intro p hp
  rw [List.mem_singleton] at hp
  subst hp
  exact ⟨⟨by decide, by decide⟩, by decide, by decide⟩

/-- A PDU that is cut after its length word and once more in the rest, or not at all. -/
theorem delivery_cut :
    Delivers [[0, 0, 0, 24], [], List.replicate 7 1, List.replicate 13 1] [shortPdu] ∧
    ∃ pdus, Delivers [[0, 0, 0, 24], [], List.replicate 7 1, List.replicate 13 1] pdus ∧
      Delivers [shortPdu] pdus := by
  have hcut : CutOk [shortPdu] [[0, 0, 0, 24], [], List.replicate 7 1, List.replicate 13 1] := by
    unfold CutOk
    simp only [at_cons, at_nil, and_true, MayCut]
    decide
  have hwhole : CutOk [shortPdu] [shortPdu] := by
    unfold CutOk
    simp only [at_cons, at_nil, and_true, MayCut]
    decide
  have hflatten : [[0, 0, 0, 24], [], List.replicate 7 1, List.replicate 13 1].flatten =
      [shortPdu].flatten := by decide
  have h := delivery_iff shortPdu_frame hflatten (Eq.refl [shortPdu].flatten)
  exact ⟨h.2 hcut, h.1.mpr ⟨hcut, hwhole⟩⟩

/-- A PDU that is cut within its length word is not delivered, whatever the manager does: the connection
dies. If nothing is there where a length word is due, the process stops. -/
theorem delivery_lost : [[0, 0], [0, 24] ++ List.replicate 20 1].flatten = [shortPdu].flatten ∧
    (¬ ∃ pdus, Delivers [[0, 0], [0, 24] ++ List.replicate 20 1] pdus ∧ Delivers [shortPdu] pdus) ∧
    (Connection.deliver {} [[0, 0], [0, 24] ++ List.replicate 20 1] (List.replicate 9 true)).map
      (fun r => (r.1.dead, r.2)) = some (true, []) ∧
    Connection.deliver {} [[], shortPdu] (List.replicate 9 true) = none ∧
    (Connection.deliver {} [shortPdu] (List.replicate 9 true)).map (fun r => (r.1.dead, r.2)) =
      some (false, [shortPdu]) := by
  refine ⟨by decide, ?_, by decide, by decide, by decide⟩
  intro ⟨pdus, hd, _⟩
  have hcut := (delivers_iff shortPdu_frame (by decide)).2 ⟨pdus, hd⟩
  have hplace := hcut [[0, 0]] _ [] rfl 0 (Nat.zero_le _)
  exact hplace.1 (by decide)

end

end Yfs.Net
