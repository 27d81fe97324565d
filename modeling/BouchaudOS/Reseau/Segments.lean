import BouchaudOS.Foundations.Bytes

/-!
# TCP segments

The header the stack writes and reads, with the checksum over the pseudo-header. A segment
is built inside a fixed buffer: a payload that does not fit is an index out of range.
-/

namespace BouchaudOS.Reseau

open UInt8

abbrev Octets := List UInt8

/-- An IPv4 address. -/
structure Ipv4Addr where
  a : UInt8
  b : UInt8
  c : UInt8
  d : UInt8
  deriving DecidableEq, Repr

def FIN : UInt8 := 0x01
def SYN : UInt8 := 0x02
def RST : UInt8 := 0x04
def PSH : UInt8 := 0x08
def ACK : UInt8 := 0x10

def WINDOW : UInt16 := 65535

def leve (flags drapeau : UInt8) : Bool := flags &&& drapeau ≠ 0

def mot (haut bas : UInt8) : ℕ := 256 * haut.toNat + bas.toNat

/-- Sum of the 16-bit words, a last byte alone counting as the high half of one. -/
def sommeMots : Octets → ℕ
  | [] => 0
  | [x] => mot x 0
  | x :: y :: l => mot x y + sommeMots l

/-- `while (sum >> 16) != 0`: the carries are added back. -/
def replie : ℕ → ℕ → ℕ
  | 0, s => s
  | n + 1, s => if s >>> 16 = 0 then s else replie n (s % 2 ^ 16 + s >>> 16)

def checksum (src dst : Ipv4Addr) (seg : Octets) : UInt16 :=
  let somme := mot src.a src.b + mot src.c src.d + mot dst.a dst.b + mot dst.c dst.d + 6 + seg.length +
    sommeMots seg
  ~~~ UInt16.ofNat (replie somme somme)

def octetsDe16 (x : UInt16) : Octets := [ofNat (x.toNat / 256), ofNat x.toNat]

def octetsDe32 (x : UInt32) : Octets :=
  [ofNat (x.toNat / 2 ^ 24), ofNat (x.toNat / 2 ^ 16), ofNat (x.toNat / 2 ^ 8), ofNat x.toNat]

def seizeDe (haut bas : UInt8) : UInt16 := UInt16.ofNat (mot haut bas)

def trenteDeuxDe (a b c d : UInt8) : UInt32 := UInt32.ofNat (2 ^ 16 * mot a b + mot c d)

/-- The two ends of a connection. -/
structure Bouts where
  src : Ipv4Addr
  dst : Ipv4Addr
  sport : UInt16
  dport : UInt16
  deriving DecidableEq, Repr

/-- The twenty bytes of a header, with the given checksum. -/
def entete (b : Bouts) (seq ack : UInt32) (flags : UInt8) (somme : UInt16) : Octets :=
  octetsDe16 b.sport ++ octetsDe16 b.dport ++ octetsDe32 seq ++ octetsDe32 ack ++ [0x50, flags] ++
    octetsDe16 WINDOW ++ octetsDe16 somme ++ [0, 0]

/-- `build` in a buffer of `taille` bytes: the segment, or nothing when the payload goes past
the end of the buffer, which stops the kernel. -/
def build (taille : ℕ) (b : Bouts) (seq ack : UInt32) (flags : UInt8) (charge : Octets) : Option Octets :=
  if 20 + charge.length ≤ taille then
    let sansSomme := entete b seq ack flags 0 ++ charge
    some (entete b seq ack flags (checksum b.src b.dst sansSomme) ++ charge)
  else none

/-- A header as `parse` reads it. -/
structure Seg where
  sport : UInt16
  dport : UInt16
  seq : UInt32
  ack : UInt32
  flags : UInt8
  dataOff : ℕ
  deriving DecidableEq, Repr

def parse (seg : Octets) : Option Seg :=
  if seg.length < 20 then none
  else
    let o := fun i => seg.getD i 0
    let dataOff := (o 12 >>> 4).toNat * 4
    if dataOff < 20 ∨ dataOff > seg.length then none
    else some
      { sport := seizeDe (o 0) (o 1)
        dport := seizeDe (o 2) (o 3)
        seq := trenteDeuxDe (o 4) (o 5) (o 6) (o 7)
        ack := trenteDeuxDe (o 8) (o 9) (o 10) (o 11)
        flags := o 13
        dataOff := dataOff }

@[simp] theorem length_entete (b : Bouts) (seq ack : UInt32) (flags : UInt8) (somme : UInt16) :
    (entete b seq ack flags somme).length = 20 := rfl

theorem build_isSome {taille : ℕ} {b : Bouts} {seq ack : UInt32} {flags : UInt8} {charge : Octets} :
    (build taille b seq ack flags charge).isSome ↔ 20 + charge.length ≤ taille := by
  unfold build
  split <;> simp_all

theorem seizeDe_octetsDe16 (x : UInt16) : seizeDe (ofNat (x.toNat / 256)) (ofNat x.toNat) = x := by
  have hx := x.toNat_lt
  apply UInt16.toNat_inj.mp
  simp only [seizeDe, mot, UInt16.toNat_ofNat', toNat_ofNat']
  omega

theorem trenteDeuxDe_octetsDe32 (x : UInt32) :
    trenteDeuxDe (ofNat (x.toNat / 2 ^ 24)) (ofNat (x.toNat / 2 ^ 16))
      (ofNat (x.toNat / 2 ^ 8)) (ofNat x.toNat) = x := by
  have hx := x.toNat_lt
  apply UInt32.toNat_inj.mp
  simp only [trenteDeuxDe, mot, UInt32.toNat_ofNat', toNat_ofNat']
  omega

theorem parse_entete (b : Bouts) (seq ack : UInt32) (flags : UInt8) (somme : UInt16) (charge : Octets) :
    parse (entete b seq ack flags somme ++ charge) = some ⟨b.sport, b.dport, seq, ack, flags, 20⟩ := by
  have hoff : ((0x50 : UInt8) >>> 4).toNat * 4 = 20 := by decide
  simp only [parse, entete, octetsDe16, octetsDe32, List.cons_append, List.nil_append, List.length_cons,
    List.getD_cons_zero, List.getD_cons_succ, hoff, seizeDe_octetsDe16, trenteDeuxDe_octetsDe32]
  rw [if_neg (by omega), if_neg (by omega)]

theorem parse_build {taille : ℕ} {b : Bouts} {seq ack : UInt32} {flags : UInt8} {charge s : Octets}
    (h : build taille b seq ack flags charge = some s) :
    parse s = some ⟨b.sport, b.dport, seq, ack, flags, 20⟩ ∧ s.drop 20 = charge := by
  unfold build at h
  split at h
  · cases h
    exact ⟨parse_entete .., List.drop_left' (length_entete ..)⟩
  · cases h

end BouchaudOS.Reseau
