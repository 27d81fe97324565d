import BouchaudOS.Foundations.Bytes
import BouchaudOS.Foundations.Crc32
import BouchaudOS.Foundations.VersionedPair
import BouchaudOS.Update.Enregistrement

/-!
# The boot record on disk

`encode` and `decode` of `system/update-core/src/ab.rs`: 96 bytes with a magic,
the fields at fixed offsets and a CRC-32 over everything before it. `decode`
also rejects a record whose active slot is not good. `selectionne` and
`copieAEcrire` work on the two copies the META partition keeps.
-/
namespace BouchaudOS.Update

open Bytes VersionedPair

/-- The checksum of the boot metadata (`ab::crc32`). -/
def crc32 (o : List UInt8) : UInt32 := crcFold tourMasque o

def octets : ℕ := 96

def magic : List UInt8 := [0x42, 0x4f, 0x41, 0x42, 0x30, 0x30, 0x30, 0x31]

def encodeEtat : Etat → List UInt8
  | .vide => [0, 0]
  | .candidat essais => [1, essais]
  | .bon => [2, 0]
  | .mauvais => [3, 0]

def decodeEtat : List UInt8 → Option Etat
  | [0, 0] => some .vide
  | [1, n] => some (.candidat n)
  | [2, 0] => some .bon
  | [3, 0] => some .mauvais
  | _ => none

def decodeSlot : UInt8 → Option Slot
  | 0 => some .A
  | 1 => some .B
  | _ => none

theorem length_encodeEtat (t : Etat) : (encodeEtat t).length = 2 := by cases t <;> rfl

theorem decodeEtat_encodeEtat (t : Etat) : decodeEtat (encodeEtat t) = some t := by
  cases t <;> rfl

theorem decodeSlot_code (s : Slot) : decodeSlot s.code = some s := by cases s <;> rfl

namespace Enregistrement

/-- The 92 bytes the checksum covers, with a zeroed checksum field. -/
def corps (e : Enregistrement) : List UInt8 :=
  let o := List.replicate octets 0
  let o := splice o 0 magic
  let o := splice o 8 (leBytes 8 e.sequence.toNat)
  let o := splice o 16 [e.actif.code]
  let o := splice o 18 (encodeEtat e.slotA.etat)
  let o := splice o 20 (encodeEtat e.slotB.etat)
  let o := splice o 24 e.slotA.image.toList
  splice o 56 e.slotB.image.toList

def encode (e : Enregistrement) : List UInt8 :=
  splice e.corps (octets - 4) (leBytes 4 (crc32 (e.corps.take (octets - 4))).toNat)

def decode (o : List UInt8) : Option Enregistrement :=
  if o.length ≠ octets ∨ slice o 0 8 ≠ magic then none
  else if crc32 (o.take (octets - 4)) ≠ UInt32.ofNat (ofLeBytes (slice o 92 4)) then none
  else do
    let actif ← decodeSlot (o.getD 16 0)
    let etatA ← decodeEtat (slice o 18 2)
    let etatB ← decodeEtat (slice o 20 2)
    let e : Enregistrement :=
      { sequence := UInt64.ofNat (ofLeBytes (slice o 8 8))
        actif := actif
        slotA := ⟨etatA, toVector 32 (slice o 24 32)⟩
        slotB := ⟨etatB, toVector 32 (slice o 56 32)⟩ }
    -- a record whose active slot is not good cannot exist
    if (e.slot e.actif).etat ≠ .bon then none else some e

variable (e : Enregistrement)

theorem length_corps : e.corps.length = octets := by
  have hm : magic.length = 8 := rfl
  simp [corps, octets, length_splice_eq, hm, length_encodeEtat]

theorem slice_corps :
    slice e.corps 0 8 = magic ∧ slice e.corps 8 8 = leBytes 8 e.sequence.toNat ∧
      slice e.corps 16 1 = [e.actif.code] ∧ slice e.corps 18 2 = encodeEtat e.slotA.etat ∧
      slice e.corps 20 2 = encodeEtat e.slotB.etat ∧
      slice e.corps 24 32 = e.slotA.image.toList ∧
      slice e.corps 56 32 = e.slotB.image.toList := by
  have hm : magic.length = 8 := rfl
  unfold corps octets
  refine ⟨?_, ?_, ?_, ?_, ?_, ?_, ?_⟩ <;>
    simp (disch := (simp [length_splice_eq, hm, length_encodeEtat]; done)) only
      [slice_splice_self, slice_splice_disjoint]

theorem length_encode : e.encode.length = octets := by
  have h := length_corps e
  unfold encode
  rw [length_splice (by rw [h]; simp [octets]), h]

theorem slice_encode {k n : ℕ} (h : k + n ≤ 92) : slice e.encode k n = slice e.corps k n := by
  exact slice_splice_disjoint (by simp [length_corps, octets]) (.inl h)

theorem slice_encode_crc : slice e.encode 92 4 = leBytes 4 (crc32 (e.corps.take (octets - 4))).toNat := by
  exact slice_splice_self (by simp) (by simp [length_corps, octets])

theorem decode_encode {e : Enregistrement} (h : e.ActifBon) : decode e.encode = some e := by
  obtain ⟨hmagic, hseq, hactif, hetatA, hetatB, himageA, himageB⟩ := slice_corps e
  have htake : e.encode.take (octets - 4) = e.corps.take (octets - 4) := by
    rw [← slice_zero, ← slice_zero, slice_encode e (by decide)]
  have hbyte : e.encode.getD 16 0 = e.actif.code := by
    rw [getD_eq_slice, slice_encode e (by norm_num), hactif]
    rfl
  have hcrc : UInt32.ofNat (ofLeBytes (slice e.encode 92 4)) = crc32 (e.encode.take (octets - 4)) := by
    rw [slice_encode_crc, uint32_ofLeBytes_leBytes, htake]
  have hbon : (e.slot e.actif).etat = .bon := h
  unfold decode
  rw [if_neg (by simp [length_encode, slice_encode e, hmagic]), if_neg (by rw [hcrc]; simp)]
  simp only [hbyte, decodeSlot_code, slice_encode e (show 18 + 2 ≤ 92 by norm_num),
    slice_encode e (show 20 + 2 ≤ 92 by norm_num), slice_encode e (show 8 + 8 ≤ 92 by norm_num),
    slice_encode e (show 24 + 32 ≤ 92 by norm_num), slice_encode e (show 56 + 32 ≤ 92 by norm_num),
    hseq, hetatA, hetatB, himageA, himageB, decodeEtat_encodeEtat, toVector_toList,
    uint64_ofLeBytes_leBytes, Option.bind_eq_bind, Option.bind_some]
  rw [if_neg (not_not.mpr hbon)]

theorem actifBon_of_decode {o : List UInt8} {e : Enregistrement} (h : decode o = some e) : e.ActifBon := by
  unfold decode at h
  split_ifs at h with h1 h2
  simp only [Option.bind_eq_bind, Option.bind_eq_some_iff] at h
  obtain ⟨actif, -, etatA, -, etatB, -, h⟩ := h
  split_ifs at h with hbon
  cases h
  exact not_not.mp hbon

end Enregistrement

open Enregistrement

/-- The newest valid copy. -/
def selectionne (copie0 copie1 : List UInt8) : Option Enregistrement :=
  match decode copie0, decode copie1 with
  | some x, some y => some (if y.sequence > x.sequence then y else x)
  | some x, none => some x
  | none, some y => some y
  | none, none => none

/-- Which copy to overwrite: never the newest valid one. -/
def copieAEcrire (copie0 copie1 : List UInt8) : Fin 2 :=
  match decode copie0, decode copie1 with
  | some x, some y => if x.sequence ≤ y.sequence then 0 else 1
  | some _, none => 1
  | _, _ => 0

def version (e : Enregistrement) : ℕ := e.sequence.toNat

variable (copie0 copie1 : List UInt8)

def copies (i : Fin 2) : Option Enregistrement :=
  decode (if i = 0 then copie0 else copie1)

theorem selectionne_eq_newest : selectionne copie0 copie1 = newest version (copies copie0 copie1) := by
  unfold selectionne newest copies version
  simp only [↓reduceIte, one_ne_zero]
  cases decode copie0 <;> cases decode copie1 <;> rfl

theorem copieAEcrire_eq_stale : copieAEcrire copie0 copie1 = stale version (copies copie0 copie1) := by
  unfold copieAEcrire stale copies version
  simp only [↓reduceIte, one_ne_zero]
  cases decode copie0 <;> cases decode copie1 <;> rfl

end BouchaudOS.Update
