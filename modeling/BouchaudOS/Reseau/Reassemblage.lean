import BouchaudOS.Foundations.Reassembly
import BouchaudOS.Reseau.Segments

/-!
# The two reassemblers

A connection with state appends what it receives to `rx`, keeps the segments that come too
early in `ooo` and takes them out again when their turn has come. `fetch` has a reception
loop of its own, with its own buffer and its own rules. Both deliver a prefix of what the
peer sends, whatever the order, the duplication and the overlap of the segments.
-/

namespace BouchaudOS.Reseau

/-- A segment received ahead of its turn. -/
structure PendingSeg where
  seq : UInt32
  data : Octets
  deriving DecidableEq, Repr

/-- `(a as i32).wrapping_sub(b as i32) < 0`. -/
def seqLess (a b : UInt32) : Bool := a.toInt32 - b.toInt32 < 0

/-- The loop of `flush_ooo` and of `drain_ooo`: as long as a pending segment starts at `ack`,
it is taken out and appended. Each turn takes one out, so `ooo.length` turns are enough. -/
def recolle : ℕ → List PendingSeg → UInt32 → Octets → List PendingSeg × UInt32 × Octets
  | 0, ooo, ack, out => (ooo, ack, out)
  | n + 1, ooo, ack, out =>
    match ooo.find? fun p => p.seq = ack with
    | none => (ooo, ack, out)
    | some p =>
      recolle n (ooo.eraseP fun p => p.seq = ack) (ack + UInt32.ofNat p.data.length) (out ++ p.data)

theorem recolle_of_none {n : ℕ} {ooo : List PendingSeg} {ack : UInt32} {out : Octets}
    (h : (ooo.find? fun p => p.seq = ack) = none) : recolle (n + 1) ooo ack out = (ooo, ack, out) := by
  simp [recolle, h]

theorem recolle_of_some {n : ℕ} {ooo : List PendingSeg} {ack : UInt32} {out : Octets} {p : PendingSeg}
    (h : (ooo.find? fun p => p.seq = ack) = some p) :
    recolle (n + 1) ooo ack out =
      recolle n (ooo.eraseP fun p => p.seq = ack) (ack + UInt32.ofNat p.data.length) (out ++ p.data) := by
  simp [recolle, h]

/-- The turns given to the loop are enough: it ends because nothing starts at `ack`. -/
theorem find_recolle (n : ℕ) (ooo : List PendingSeg) (ack : UInt32) (out : Octets) (h : ooo.length ≤ n) :
    (recolle n ooo ack out).1.find? (fun p => p.seq = (recolle n ooo ack out).2.1) = none := by
  induction n generalizing ooo ack out with
  | zero =>
    obtain rfl := List.length_eq_zero_iff.mp (Nat.le_zero.mp h)
    rfl
  | succ n ih =>
    cases hp : ooo.find? fun p => p.seq = ack with
    | none =>
      rw [recolle_of_none hp]
      exact hp
    | some p =>
      rw [recolle_of_some hp]
      refine ih _ _ _ ?_
      have hmem := List.mem_of_find?_eq_some hp
      have hlen := List.length_eraseP_of_mem hmem (List.find?_some hp)
      omega

/-- The state of a connection that its reception uses. -/
structure TcpConn where
  sport : UInt16
  ack : UInt32
  rx : Octets := []
  ooo : List PendingSeg := []
  peerFin : Bool := false
  closed : Bool := false
  rstSeen : Bool := false
  finSeen : Bool := false
  deriving DecidableEq, Repr

namespace TcpConn

def flushOoo (c : TcpConn) : TcpConn :=
  let r := recolle c.ooo.length c.ooo c.ack c.rx
  { c with ooo := r.1, ack := r.2.1, rx := r.2.2 }

def acceptSegment (c : TcpConn) (seq : UInt32) (data : Octets) : TcpConn :=
  if data.isEmpty then c
  else if seq = c.ack then
    flushOoo { c with rx := c.rx ++ data, ack := c.ack + UInt32.ofNat data.length }
  else if seqLess seq c.ack then
    let skip := (c.ack - seq).toNat
    if data.length ≤ skip then c
    else flushOoo { c with rx := c.rx ++ data.drop skip, ack := c.ack + UInt32.ofNat (data.length - skip) }
  else if 64 ≤ c.ooo.length then c
  else if c.ooo.any fun p => p.seq = seq then c
  else { c with ooo := c.ooo ++ [⟨seq, data⟩] }

/-- One packet of the loop of `pump`, and whether the loop goes on: a reset stops it. A packet
of another connection is put aside. -/
def pumpUn (c : TcpConn) (paquet : Octets) : TcpConn × Bool :=
  match parse paquet with
  | none => (c, true)
  | some h =>
    if h.dport ≠ c.sport then (c, true)
    else if leve h.flags RST then ({ c with closed := true, peerFin := true, rstSeen := true }, false)
    else
      let data := paquet.drop h.dataOff
      let c := if data.isEmpty then c else c.acceptSegment h.seq data
      if leve h.flags FIN && h.seq + UInt32.ofNat data.length = c.ack then
        ({ c with ack := c.ack + 1, peerFin := true, finSeen := true }, true)
      else (c, true)

/-- `pump` on the packets that the ring gives, at most as many as the budget. -/
def pump (c : TcpConn) : List Octets → TcpConn
  | [] => c
  | p :: ps =>
    match c.pumpUn p with
    | (c, true) => c.pump ps
    | (c, false) => c

def take (c : TcpConn) (n : ℕ) : Octets × TcpConn :=
  (c.rx.take n, { c with rx := c.rx.drop n })

end TcpConn

/-- What the reception loop of `fetch` keeps. -/
structure Recep where
  myAck : UInt32
  out : Octets
  ooo : List PendingSeg := []
  deriving DecidableEq, Repr

/-- Why the loop ends: a FIN, a reset, too many bytes, or too long a silence. -/
inductive Cause
  | fin
  | rst
  | plafond
  | delai
  deriving DecidableEq, Repr

inductive Suite
  | enCours (s : Recep)
  | retour (cause : Cause) (s : Recep)
  deriving DecidableEq, Repr

namespace Recep

def relatif (seq ack : UInt32) : ℤ := (seq - ack).toInt32.toInt

/-- `drain_ooo`. -/
def drainOoo (s : Recep) : Recep :=
  let r := recolle s.ooo.length s.ooo s.myAck s.out
  { myAck := r.2.1
    out := r.2.2
    ooo := r.1.filter fun p => 0 ≤ relatif p.seq r.2.1 ∨ 0 < relatif p.seq r.2.1 + p.data.length }

/-- What a segment with data does to the buffers. -/
def range (s : Recep) (seq : UInt32) (data : Octets) : Recep :=
  if seq = s.myAck then
    drainOoo { s with out := s.out ++ data, myAck := s.myAck + UInt32.ofNat data.length }
  else if 0 < relatif seq s.myAck ∧ relatif seq s.myAck < 2 * 1024 * 1024 then
    if (!s.ooo.any fun p => p.seq = seq) && s.ooo.length < 512 then
      { s with ooo := s.ooo ++ [⟨seq, data⟩] }
    else s
  else s

def pourNous (sport : UInt16) (paquet : Octets) : Option Seg :=
  (parse paquet).filter fun h => h.dport = sport

/-- One packet of the reception. -/
def recoit (sport : UInt16) (s : Recep) (paquet : Octets) : Suite :=
  match pourNous sport paquet with
  | none => .enCours s
  | some h =>
    let data := paquet.drop h.dataOff
    let s := if data.isEmpty then s else s.range h.seq data
    if leve h.flags FIN && s.ooo.isEmpty then .retour .fin { s with myAck := s.myAck + 1 }
    else if leve h.flags RST then .retour .rst s
    else .enCours s

/-- The packets that are read without waiting. -/
def lit (sport : UInt16) : List Octets → Recep → Suite
  | [], s => .enCours s
  | p :: ps, s =>
    match s.recoit sport p with
    | .enCours s => lit sport ps s
    | r => r

end Recep

/-- A turn of the outer loop: what the ring gives before it is empty, and whether the loop
gives up when nothing of it is for this connection. -/
structure Tour where
  paquets : List Octets
  borne : paquets.length ≤ 8192
  abandon : Bool

/-- The reception of `fetch`. -/
def reception (sport : UInt16) : List Tour → Recep → Suite
  | [], s => .enCours s
  | t :: ts, s =>
    match s.lit sport t.paquets with
    | .enCours s =>
      if 4000000 < s.out.length then .retour .plafond s
      else if (t.paquets.all fun p => (Recep.pourNous sport p).isNone) && t.abandon then .retour .delai s
      else reception sport ts s
    | r => r

end BouchaudOS.Reseau
