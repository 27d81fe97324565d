import BouchaudOS.Reseau.Reassemblage

/-!
# Reading from a connection

TLS reads a connection through `fill` and `take`. What the network will bring is a list of
turns of the waiting loop. However the bytes are cut into segments and turns, and wherever the
waiting gives up, what is read is one stream: `fill` moves bytes of it into the buffer, `take`
removes bytes at its front.
-/

namespace BouchaudOS.Reseau

namespace TcpConn

/-- The same connection with more bytes before those of its buffer. -/
def avec (a : Octets) (c : TcpConn) : TcpConn := { c with rx := a ++ c.rx }

variable (a : Octets) (c : TcpConn)

theorem recolle_avec (n : ℕ) (ooo : List PendingSeg) (ack : UInt32) (out : Octets) :
    recolle n ooo ack (a ++ out) =
      ((recolle n ooo ack out).1, (recolle n ooo ack out).2.1, a ++ (recolle n ooo ack out).2.2) := by
  induction n generalizing ooo ack out with
  | zero => rfl
  | succ n ih =>
    cases hp : ooo.find? fun p => p.seq = ack with
    | none => simp only [recolle_of_none hp]
    | some p => simp only [recolle_of_some hp, List.append_assoc, ih]

theorem flushOoo_avec : (c.avec a).flushOoo = c.flushOoo.avec a := by
  simp only [flushOoo, avec, recolle_avec]

@[simp] theorem avec_sport : (c.avec a).sport = c.sport := rfl

@[simp] theorem avec_ack : (c.avec a).ack = c.ack := rfl

theorem avec_ajoute (d : Octets) (k : UInt32) :
    ({ c.avec a with rx := (c.avec a).rx ++ d, ack := k } : TcpConn) =
      ({ c with rx := c.rx ++ d, ack := k } : TcpConn).avec a := by
  simp [avec]

theorem acceptSegment_avec (seq : UInt32) (data : Octets) :
    (c.avec a).acceptSegment seq data = (c.acceptSegment seq data).avec a := by
  unfold acceptSegment
  dsimp only
  rw [avec_ajoute, avec_ajoute, flushOoo_avec, flushOoo_avec]
  simp only [apply_ite (avec a)]
  rfl

theorem pumpUn_avec (p : Octets) : (c.avec a).pumpUn p = ((c.pumpUn p).1.avec a, (c.pumpUn p).2) := by
  unfold pumpUn
  cases parse p with
  | none => rfl
  | some h =>
    dsimp only
    rw [acceptSegment_avec, avec_sport, ← apply_ite (avec a)]
    split_ifs <;> first | rfl | simp_all

theorem pump_avec (ps : List Octets) : (c.avec a).pump ps = (c.pump ps).avec a := by
  induction ps generalizing c with
  | nil => rfl
  | cons p ps ih =>
    rw [pump, pump, pumpUn_avec]
    rcases c.pumpUn p with ⟨c', _ | _⟩
    · rfl
    · exact ih c'

end TcpConn

/-- A turn of the waiting loop of `fill`: what the ring gives, and whether the time is over when
it gave nothing new. -/
structure Passe where
  paquets : List Octets
  delai : Bool
  deriving DecidableEq, Repr

/-- A connection and what the network will bring to it. -/
structure Lien where
  conn : TcpConn
  avenir : List Passe
  deriving DecidableEq, Repr

namespace Lien

/-- The waiting loop of `fill`. -/
def attend (want : ℕ) : TcpConn → List Passe → TcpConn × List Passe
  | c, [] => (c, [])
  | c, p :: ps =>
    if c.rx.length < want ∧ ¬ c.peerFin ∧ ¬ c.closed then
      let c' := c.pump p.paquets
      if c'.rx.length ≠ c.rx.length then attend want c' ps
      else if p.delai then (c', ps)
      else attend want c' ps
    else (c, p :: ps)

def fill (l : Lien) (want : ℕ) : Bool × Lien :=
  let r := attend want l.conn l.avenir
  (want ≤ r.1.rx.length, ⟨r.1, r.2⟩)

def take (l : Lien) (n : ℕ) : Octets × Lien := ((l.conn.take n).1, ⟨(l.conn.take n).2, l.avenir⟩)

def flux (l : Lien) : Octets := (l.avenir.foldl (fun c p => c.pump p.paquets) l.conn).rx

theorem foldl_pump_avec (a : Octets) (ps : List Passe) (c : TcpConn) :
    ps.foldl (fun c p => c.pump p.paquets) (c.avec a) = (ps.foldl (fun c p => c.pump p.paquets) c).avec a := by
  induction ps generalizing c with
  | nil => rfl
  | cons p ps ih => rw [List.foldl_cons, List.foldl_cons, TcpConn.pump_avec, ih]

theorem flux_avec (a : Octets) (c : TcpConn) (ps : List Passe) :
    (⟨c.avec a, ps⟩ : Lien).flux = a ++ (⟨c, ps⟩ : Lien).flux := by
  simp only [flux, foldl_pump_avec]
  rfl

theorem foldl_attend (want : ℕ) (c : TcpConn) (ps : List Passe) :
    (attend want c ps).2.foldl (fun c p => c.pump p.paquets) (attend want c ps).1 =
      ps.foldl (fun c p => c.pump p.paquets) c := by
  induction ps generalizing c with
  | nil => rfl
  | cons p ps ih =>
    rw [attend]
    dsimp only
    split_ifs
    · exact ih _
    · rfl
    · exact ih _
    · rfl

variable (l : Lien)

@[simp] theorem flux_fill (want : ℕ) : (l.fill want).2.flux = l.flux :=
  congrArg TcpConn.rx (foldl_attend want l.conn l.avenir)

theorem fill_eq_true {l : Lien} {want : ℕ} (h : (l.fill want).1 = true) :
    want ≤ (l.fill want).2.conn.rx.length := by
  simpa [fill] using h

theorem flux_take (n : ℕ) : l.flux = (l.take n).1 ++ (l.take n).2.flux := by
  have h := flux_avec (l.conn.rx.take n) (l.conn.take n).2 l.avenir
  have hc : (l.conn.take n).2.avec (l.conn.rx.take n) = l.conn := by
    simp [TcpConn.avec, TcpConn.take]
  rw [hc] at h
  exact h

theorem length_take {n : ℕ} (h : n ≤ l.conn.rx.length) : (l.take n).1.length = n := by
  simp [take, TcpConn.take, h]

theorem length_rx_take (n : ℕ) : (l.take n).2.conn.rx.length = l.conn.rx.length - n := by
  simp [take, TcpConn.take]

/-- A turn without waiting, as after a segment that was sent. -/
def pompe (l : Lien) : Lien :=
  match l.avenir with
  | [] => l
  | p :: ps => ⟨l.conn.pump p.paquets, ps⟩

@[simp] theorem flux_pompe : l.pompe.flux = l.flux := by
  obtain ⟨c, ps⟩ := l
  cases ps with
  | nil => rfl
  | cons p ps => rfl

end Lien

end BouchaudOS.Reseau
