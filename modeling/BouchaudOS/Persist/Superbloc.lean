import BouchaudOS.Foundations.Bytes
import BouchaudOS.Foundations.Crc32
import BouchaudOS.Foundations.VersionedPair

/-!
# The superblock of the persistent zone

`src/fs/persistance/superbloc.rs`: the sector that designates the valid half of
the zone. There are two of them, each with a generation and a checksum over its
first 40 bytes; the valid one with the highest generation is mounted, and a
commit writes the other one.
-/
namespace BouchaudOS.Persist

open Bytes VersionedPair

/-- `SECTOR_SIZE`. -/
def tailleSecteur : ℕ := 512

def secteurNul : List UInt8 := List.replicate tailleSecteur 0

@[simp] theorem length_secteurNul : secteurNul.length = 512 := List.length_replicate

def sommeControle (o : List UInt8) : UInt32 := crcFold tourBranche o

def magieV2 : List UInt8 := [0x42, 0x4f, 0x50, 0x45, 0x52, 0x53, 0x49, 0x32]

def versionV2 : UInt32 := 2

/-- The forty bytes of the fields and the four of the checksum. -/
def tailleSuperbloc : ℕ := 44

structure Superbloc where
  generation : UInt64
  /-- The active half. -/
  demi : Fin 2
  entrees : UInt32
  secteursContenu : UInt64
  sommeTable : UInt32
  deriving DecidableEq, Repr

namespace Superbloc

/-- The sector without its checksum. -/
def corps (s : Superbloc) : List UInt8 :=
  let o := splice secteurNul 0 magieV2
  let o := splice o 8 (leBytes 4 versionV2.toNat)
  let o := splice o 12 (leBytes 8 s.generation.toNat)
  let o := splice o 20 (leBytes 4 s.demi.val)
  let o := splice o 24 (leBytes 4 s.entrees.toNat)
  let o := splice o 28 (leBytes 8 s.secteursContenu.toNat)
  splice o 36 (leBytes 4 s.sommeTable.toNat)

def encode (s : Superbloc) : List UInt8 :=
  splice s.corps 40 (leBytes 4 (sommeControle (slice s.corps 0 40)).toNat)

def decodeDemi (n : UInt32) : Option (Fin 2) :=
  if n = 0 then some 0 else if n = 1 then some 1 else none

def decode (o : List UInt8) : Option Superbloc :=
  if o.length < tailleSuperbloc then none
  else if slice o 0 8 ≠ magieV2 then none
  else if UInt32.ofNat (ofLeBytes (slice o 8 4)) ≠ versionV2 then none
  else if sommeControle (slice o 0 40) ≠ UInt32.ofNat (ofLeBytes (slice o 40 4)) then none
  else do
    let demi ← decodeDemi (UInt32.ofNat (ofLeBytes (slice o 20 4)))
    some
      { generation := UInt64.ofNat (ofLeBytes (slice o 12 8))
        demi := demi
        entrees := UInt32.ofNat (ofLeBytes (slice o 24 4))
        secteursContenu := UInt64.ofNat (ofLeBytes (slice o 28 8))
        sommeTable := UInt32.ofNat (ofLeBytes (slice o 36 4)) }

variable (s : Superbloc)

theorem length_corps : s.corps.length = 512 := by
  have hm : magieV2.length = 8 := rfl
  simp [corps, length_splice_eq, hm]

@[simp] theorem length_encode : s.encode.length = 512 := by
  rw [encode, length_splice (by simp [length_corps]), length_corps]

theorem decodeDemi_val (d : Fin 2) : decodeDemi (UInt32.ofNat (ofLeBytes (leBytes 4 d.val))) = some d := by
  fin_cases d <;> rfl

theorem slice_corps :
    slice s.corps 0 8 = magieV2 ∧ slice s.corps 8 4 = leBytes 4 versionV2.toNat ∧
      slice s.corps 12 8 = leBytes 8 s.generation.toNat ∧
      slice s.corps 20 4 = leBytes 4 s.demi.val ∧
      slice s.corps 24 4 = leBytes 4 s.entrees.toNat ∧
      slice s.corps 28 8 = leBytes 8 s.secteursContenu.toNat ∧
      slice s.corps 36 4 = leBytes 4 s.sommeTable.toNat := by
  have hm : magieV2.length = 8 := rfl
  unfold corps
  refine ⟨?_, ?_, ?_, ?_, ?_, ?_, ?_⟩ <;>
    simp (disch := (simp [length_splice_eq, hm]; done)) only [slice_splice_self, slice_splice_disjoint]

theorem slice_encode {k n : ℕ} (h : k + n ≤ 40) : slice s.encode k n = slice s.corps k n :=
  slice_splice_disjoint (by simp [length_corps]) (.inl h)

theorem slice_encode_somme : slice s.encode 40 4 = leBytes 4 (sommeControle (slice s.corps 0 40)).toNat :=
  slice_splice_self (by simp) (by simp [length_corps])

theorem slice_encode_magie : slice s.encode 0 8 = magieV2 := by
  rw [slice_encode s (by norm_num), (slice_corps s).1]

theorem decode_encode : decode s.encode = some s := by
  obtain ⟨-, hversion, hgen, hdemi, hentrees, hsecteurs, hsomme⟩ := slice_corps s
  have hcrc : UInt32.ofNat (ofLeBytes (slice s.encode 40 4)) = sommeControle (slice s.encode 0 40) := by
    rw [slice_encode_somme, uint32_ofLeBytes_leBytes, slice_encode s (by norm_num)]
  unfold decode
  rw [if_neg (by simp [tailleSuperbloc]), if_neg (not_not.mpr (slice_encode_magie s)),
    if_neg (by rw [slice_encode s (by norm_num), hversion]; simp),
    if_neg (by rw [hcrc]; simp)]
  simp only [slice_encode s (show 20 + 4 ≤ 40 by norm_num),
    slice_encode s (show 12 + 8 ≤ 40 by norm_num), slice_encode s (show 24 + 4 ≤ 40 by norm_num),
    slice_encode s (show 28 + 8 ≤ 40 by norm_num), slice_encode s (show 36 + 4 ≤ 40 by norm_num),
    hgen, hdemi, hentrees, hsecteurs, hsomme, decodeDemi_val, uint64_ofLeBytes_leBytes,
    uint32_ofLeBytes_leBytes, Option.bind_eq_bind, Option.bind_some]

theorem decode_congr {o o' : List UInt8} (h : o.take tailleSuperbloc = o'.take tailleSuperbloc) :
    decode o = decode o' := by
  have hs : ∀ {k n : ℕ}, k + n ≤ 44 → slice o k n = slice o' k n := by
    intro k n hkn
    rw [← slice_take (o := o) hkn, ← slice_take (o := o') hkn]
    exact congrArg (slice · k n) h
  have hl : o.length < tailleSuperbloc ↔ o'.length < tailleSuperbloc := by
    have := congrArg List.length h
    simp only [List.length_take] at this
    omega
  unfold decode
  simp only [hs (show 0 + 8 ≤ 44 by norm_num), hs (show 8 + 4 ≤ 44 by norm_num),
    hs (show 0 + 40 ≤ 44 by norm_num), hs (show 40 + 4 ≤ 44 by norm_num),
    hs (show 20 + 4 ≤ 44 by norm_num), hs (show 12 + 8 ≤ 44 by norm_num),
    hs (show 24 + 4 ≤ 44 by norm_num), hs (show 28 + 8 ≤ 44 by norm_num),
    hs (show 36 + 4 ≤ 44 by norm_num), hl]

end Superbloc

/-- Which of the two superblocks to mount, with its place. -/
def choisit (a b : Option Superbloc) : Option (Fin 2 × Superbloc) :=
  match a, b with
  | none, none => none
  | some a, none => some (0, a)
  | none, some b => some (1, b)
  | some a, some b => if b.generation > a.generation then some (1, b) else some (0, a)

/-- Where the next commit goes: the other place, the other half. -/
def prochain : Option (Fin 2 × Superbloc) → Fin 2 × Fin 2 × UInt64
  | none => (0, 0, 1)
  | some (emplacement, superbloc) =>
    (1 - emplacement, 1 - superbloc.demi, superbloc.generation + 1)

def version (s : Superbloc) : ℕ := s.generation.toNat

theorem choisit_eq_newest (p : Fin 2 → Option Superbloc) :
    (choisit (p 0) (p 1)).map Prod.snd = newest version p := by
  unfold choisit newest
  cases p 0 with
  | none => cases p 1 <;> rfl
  | some a =>
    cases p 1 with
    | none => rfl
    | some b =>
      have hlt : b.generation > a.generation ↔ version a < version b := UInt64.lt_iff_toNat_lt
      by_cases h : version a < version b
      · simp [h, hlt.mpr h]
      · simp [h, mt hlt.mp h]

/-- The mounted superblock stands where it was found, so a commit elsewhere
leaves it current. -/
theorem guards_of_choisit {p : Fin 2 → Option Superbloc} {e : Fin 2} {s : Superbloc}
    (h : choisit (p 0) (p 1) = some (e, s)) : Guards version p (1 - e) s := by
  refine ⟨?_, by rw [← choisit_eq_newest, h]; rfl⟩
  unfold choisit at h
  split at h
  · cases h
  · simp_all
  · simp_all
  · split_ifs at h <;> simp_all

theorem choisit_eq_none {p : Fin 2 → Option Superbloc} :
    choisit (p 0) (p 1) = none ↔ newest version p = none := by
  rw [← choisit_eq_newest, Option.map_eq_none_iff]

end BouchaudOS.Persist
