import BouchaudOS.Bloc
import BouchaudOS.Foundations.Crc32

/-!
# Reading a GPT

`src/fs/gpt.rs`: the header (signature and checksum, with the backup header as
a fallback), the partition entries, and `litTable`, which reads them from a
volume. The bounds of an entry are not checked against the disk or against the
other entries.
-/
namespace BouchaudOS.Gpt

open Bytes UInt64
open Prog hiding pure

def tailleEntree : ℕ := 128

def tailleEntete : ℕ := 92

def entreesMax : ℕ := 512

def signature : List UInt8 := [0x45, 0x46, 0x49, 0x20, 0x50, 0x41, 0x52, 0x54]

def crc32 (o : List UInt8) : UInt32 := crcFold tourBranche o

theorem crc32_eq_masque (o : List UInt8) : crc32 o = crcFold tourMasque o :=
  (crcFold_masque_eq_branche o).symm

/-- A GUID in its mixed GPT form. -/
structure Guid where
  d1 : UInt32
  d2 : UInt16
  d3 : UInt16
  d4 : Vector UInt8 8
  deriving DecidableEq, Repr

namespace Guid

def nul : Guid := ⟨0, 0, 0, Vector.replicate 8 0⟩

def EstNul (g : Guid) : Prop := g.d1 = 0 ∧ g.d2 = 0 ∧ g.d3 = 0

instance (g : Guid) : Decidable g.EstNul := inferInstanceAs (Decidable (_ ∧ _))

/-- Three little-endian fields, then eight bytes as they are. -/
def octets (g : Guid) : List UInt8 :=
  leBytes 4 g.d1.toNat ++ leBytes 2 g.d2.toNat ++ leBytes 2 g.d3.toNat ++ g.d4.toList

def depuisOctets (o : List UInt8) : Guid :=
  if o.length < 16 then nul
  else
    { d1 := UInt32.ofNat (ofLeBytes (slice o 0 4))
      d2 := UInt16.ofNat (ofLeBytes (slice o 4 2))
      d3 := UInt16.ofNat (ofLeBytes (slice o 6 2))
      d4 := toVector 8 (slice o 8 8) }

end Guid

/-- A partition entry; the last block is included. The name is not modelled. -/
structure Partition where
  typeGuid : Guid
  unique : Guid
  premier : UInt64
  dernier : UInt64
  attributs : UInt64
  deriving DecidableEq, Repr

namespace Partition

/-- `dernier.saturating_sub(premier).saturating_add(1)`. -/
def blocs (p : Partition) : UInt64 :=
  let d := if p.premier ≤ p.dernier then p.dernier - p.premier else 0
  if d + 1 < d then UInt64.ofNat (2 ^ 64 - 1) else d + 1

def Contient (p : Partition) (lba : UInt64) : Prop := p.premier ≤ lba ∧ lba ≤ p.dernier

instance (p : Partition) (lba : UInt64) : Decidable (p.Contient lba) :=
  inferInstanceAs (Decidable (_ ∧ _))

def decode (e : List UInt8) : Option Partition :=
  if e.length < tailleEntree then none
  else
    let typeGuid := Guid.depuisOctets (slice e 0 16)
    if typeGuid.EstNul then none
    else some
      { typeGuid := typeGuid
        unique := Guid.depuisOctets (slice e 16 16)
        premier := UInt64.ofNat (ofLeBytes (slice e 32 8))
        dernier := UInt64.ofNat (ofLeBytes (slice e 40 8))
        attributs := UInt64.ofNat (ofLeBytes (slice e 48 8)) }

end Partition

structure Entete where
  monLba : UInt64
  autreLba : UInt64
  premierUtilisable : UInt64
  dernierUtilisable : UInt64
  disque : Guid
  tableauLba : UInt64
  entrees : UInt32
  tailleEntree : UInt32
  crcTableau : UInt32
  deriving DecidableEq, Repr

def decodeEntete (bloc : List UInt8) : Option Entete :=
  if bloc.length < tailleEntete ∨ slice bloc 0 8 ≠ signature then none
  else
    let taille := ofLeBytes (slice bloc 12 4)
    if ¬(tailleEntete ≤ taille ∧ taille ≤ bloc.length) then none
    else
      -- the checksum is computed with its own field zeroed
      let copie := splice (bloc.take taille) 16 [0, 0, 0, 0]
      if crc32 copie ≠ UInt32.ofNat (ofLeBytes (slice bloc 16 4)) then none
      else some
        { monLba := UInt64.ofNat (ofLeBytes (slice bloc 24 8))
          autreLba := UInt64.ofNat (ofLeBytes (slice bloc 32 8))
          premierUtilisable := UInt64.ofNat (ofLeBytes (slice bloc 40 8))
          dernierUtilisable := UInt64.ofNat (ofLeBytes (slice bloc 48 8))
          disque := Guid.depuisOctets (slice bloc 56 16)
          tableauLba := UInt64.ofNat (ofLeBytes (slice bloc 72 8))
          entrees := UInt32.ofNat (ofLeBytes (slice bloc 80 4))
          tailleEntree := UInt32.ofNat (ofLeBytes (slice bloc 84 4))
          crcTableau := UInt32.ofNat (ofLeBytes (slice bloc 88 4)) }

inductive Erreur
  | lectureRefusee
  | tableAbsente
  | secoursIncoherente
  deriving DecidableEq, Repr

/-- Read `n` blocks one after the other. -/
def litZone (s : SupportVolume) (lba : UInt64) : ℕ → ProgBloc (Option (List UInt8))
  | 0 => pure (some [])
  | n + 1 => do
    match ← litBlocs s.volume s.tailleBloc.toNat lba 1 with
    | none => pure none
    | some bloc =>
      match ← litZone s (lba + 1) n with
      | none => pure none
      | some reste => pure (some (bloc ++ reste))

/-- The primary header, or the backup one; the flag says which. -/
def litEntete (s : SupportVolume) : ProgBloc (Except Erreur (Entete × Bool)) := do
  let primaire ← litBlocs s.volume s.tailleBloc.toNat 1 1
  match primaire.bind decodeEntete with
  | some e => pure (.ok (e, false))
  | none =>
    if s.blocs = 0 then pure (.error .lectureRefusee)
    else match ← litBlocs s.volume s.tailleBloc.toNat (s.blocs - 1) 1 with
      | none => pure (.error .lectureRefusee)
      | some bloc =>
        match decodeEntete bloc with
        | none => pure (.error .tableAbsente)
        | some e => pure (.ok (e, true))

/-- The entries of a table of `n` entries. -/
def decodeTableau (tableau : List UInt8) (n : ℕ) : List Partition :=
  (List.range n).filterMap fun i =>
    Partition.decode (slice tableau (i * tailleEntree) tailleEntree)

/-- Read the table; the flag says that the backup header was used. -/
def litTable (s : SupportVolume) : ProgBloc (Except Erreur (List Partition × Bool)) := do
  match ← litEntete s with
  | .error e => pure (.error e)
  | .ok (entete, degradee) =>
    if entete.tailleEntree.toNat ≠ tailleEntree ∨ entete.entrees = 0 then
      pure (.error .secoursIncoherente)
    else if entete.entrees.toNat > entreesMax then pure (.error .secoursIncoherente)
    else
      let octets := entete.entrees.toNat * tailleEntree
      let blocs := (octets + s.tailleBloc.toNat - 1) / s.tailleBloc.toNat
      match ← litZone s entete.tableauLba blocs with
      | none => pure (.error .lectureRefusee)
      | some tableau =>
        if crc32 (tableau.take octets) ≠ entete.crcTableau then pure (.error .tableAbsente)
        else pure (.ok (decodeTableau tableau entete.entrees.toNat, degradee))

variable (s : SupportVolume)

theorem litZone_readOnly (lba : UInt64) (n : ℕ) : (litZone s lba n).ReadOnly := by
  induction n generalizing lba with
  | zero => exact trivial
  | succ n ih =>
    refine ReadOnly.bind (litBlocs_readOnly _ _ _ _) fun r => ?_
    cases r with
    | none => exact trivial
    | some bloc =>
      refine ReadOnly.bind (ih _) fun r => ?_
      cases r <;> exact trivial

theorem litEntete_readOnly : (litEntete s).ReadOnly := by
  refine ReadOnly.bind (litBlocs_readOnly _ _ _ _) fun primaire => ?_
  cases primaire.bind decodeEntete with
  | some e => exact trivial
  | none =>
    simp only
    split
    · exact trivial
    · refine ReadOnly.bind (litBlocs_readOnly _ _ _ _) fun r => ?_
      cases r with
      | none => exact trivial
      | some bloc => cases h : decodeEntete bloc <;> simp only [h] <;> exact trivial

theorem litTable_readOnly : (litTable s).ReadOnly := by
  refine ReadOnly.bind (litEntete_readOnly s) fun r => ?_
  cases r with
  | error e => exact trivial
  | ok x =>
    simp only
    split
    · exact trivial
    · split
      · exact trivial
      · refine ReadOnly.bind (litZone_readOnly _ _ _) fun r => ?_
        cases r with
        | none => exact trivial
        | some tableau =>
          simp only
          split <;> exact trivial

variable {s : SupportVolume} {d : DisqueBloc} {e : Entete} {p : Partition}

theorem litEntete_exec (h : decodeEntete (octetsDe s.tailleBloc.toNat [d.read (s.volume, 1)]) = some e) :
    (litEntete s).exec d = (.ok (e, false), d) := by
  simp [litEntete, exec_bind, adresses, h]

/-- A primary header that decodes and a table of one block with the announced
checksum. -/
theorem litTable_exec {tableau : List UInt8}
    (he : decodeEntete (octetsDe s.tailleBloc.toNat [d.read (s.volume, 1)]) = some e)
    (ht : e.tailleEntree.toNat = tailleEntree) (h0 : e.entrees ≠ 0)
    (hmax : e.entrees.toNat ≤ entreesMax)
    (hun : (e.entrees.toNat * tailleEntree + s.tailleBloc.toNat - 1) / s.tailleBloc.toNat = 1)
    (hlu : octetsDe s.tailleBloc.toNat [d.read (s.volume, e.tableauLba)] = tableau)
    (hcrc : crc32 (tableau.take (e.entrees.toNat * tailleEntree)) = e.crcTableau) :
    (litTable s).exec d = (.ok (decodeTableau tableau e.entrees.toNat, false), d) := by
  have hzone : (litZone s e.tableauLba 1).exec d = (some tableau, d) := by
    simp [litZone, exec_bind, adresses, hlu]
  rw [litTable, exec_bind, litEntete_exec he]
  simp only [ht, h0, ne_eq, not_true_eq_false, or_self, if_false, if_neg (Nat.not_lt.mpr hmax), hun]
  rw [exec_bind, hzone]
  simp [hcrc]

/-- A partition whose bounds are in order has one block more than their
difference, unless that does not fit in 64 bits. -/
theorem blocs_le (h : p.premier ≤ p.dernier) : p.blocs.toNat ≤ p.dernier.toNat - p.premier.toNat + 1 := by
  have hd : (p.dernier - p.premier).toNat = p.dernier.toNat - p.premier.toNat :=
    UInt64.toNat_sub_of_le _ _ h
  unfold Partition.blocs
  simp only [if_pos h]
  split
  · rename_i hov
    rw [UInt64.lt_iff_toNat_lt, UInt64.toNat_add, UInt64.toNat_one] at hov
    simp only [toNat_ofNat']
    omega
  · rw [UInt64.toNat_add, UInt64.toNat_one, hd]
    omega

theorem premier_le_dernier (h : 1 < p.blocs) : p.premier ≤ p.dernier := by
  by_contra hn
  have hb : p.blocs = 1 := by
    unfold Partition.blocs
    simp only [if_neg hn]
    decide
  rw [hb] at h
  exact absurd h (by decide)

theorem contient_add (h : p.premier ≤ p.dernier) {i : UInt64}
    (hi : i.toNat < p.blocs.toNat) : p.Contient (p.premier + i) := by
  have hb := blocs_le h
  have hlt := p.dernier.toNat_lt
  have hle := le_iff_toNat_le.mp h
  have hsum : (p.premier + i).toNat = p.premier.toNat + i.toNat := by
    rw [UInt64.toNat_add, Nat.mod_eq_of_lt (by omega)]
  constructor
  · rw [le_iff_toNat_le, hsum]
    omega
  · rw [le_iff_toNat_le, hsum]
    omega

end BouchaudOS.Gpt
